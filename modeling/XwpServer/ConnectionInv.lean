/-
  XwpServer.ConnectionInv

  What the two threads of a connection can rely on in every interleaving.

  Only the worker writes `state`, so the field says where the worker is.  The guard
  acts on a timeout under the lock and only after it has seen the state
  `CONNECTION_RUNNING` there; from then on the worker gets no further than the lock
  of `connection_reusable`.
-/

import XwpServer.Connection

namespace XwpServer

open Transition

/-! ## Regions of the program -/

namespace WorkerPc

/-- The value of the field `state` at a point of the worker. -/
def state : WorkerPc → ConnectionState
  | .idle | .createPool | .createRequest | .setStartTime | .setFd | .setRunning | .returned =>
    .reuseable
  | .logClose | .reusableLock | .reusableClear | .reusableUnlock | .reusableDestroy
  | .setReuseable => .beforeReuseable
  | _ => .running

/-- The worker holds the lock. -/
def locked : WorkerPc → Bool
  | .finalizeUpdate | .finalizeUnlock | .reusableClear | .reusableUnlock => true
  | _ => false

/-- In front of the lock of `connection_reusable`. -/
def closing : WorkerPc → Bool
  | .logClose | .reusableLock => true
  | _ => false

/-- From `CONNECTION_RUNNING` up to the lock of `connection_reusable`. -/
def exposed (w : WorkerPc) : Bool := w.state = .running || w.closing

/-- `thiz->fd` has not been set, or has been given up. -/
def noFd : WorkerPc → Bool
  | .idle | .createPool | .createRequest | .setStartTime | .setFd | .reusableUnlock
  | .reusableDestroy | .setReuseable | .returned => true
  | _ => false

/-- The run has set its start time and not returned. -/
def started : WorkerPc → Bool
  | .setFd | .setRunning => true
  | w => w.exposed

/-- All of the above. -/
def region (w : WorkerPc) : ConnectionState × List Bool :=
  (w.state, [w.locked, w.closing, w.noFd, w.started, w = .reusableClear, w = .setRunning])

/-- A step from here may leave the region or change what the guard reads. -/
def boundary : WorkerPc → Bool
  | .idle | .setStartTime | .setFd | .setRunning | .finalizeLock | .finalizeUpdate
  | .finalizeUnlock | .setBefore | .reusableLock | .reusableClear | .reusableUnlock
  | .setReuseable => true
  | _ => false

@[simp] theorem region_afterDone (s : Int) : (afterDone s).region = genRequest.region := by
  unfold afterDone
  split <;> rfl

@[grind →] theorem started_of_exposed {w : WorkerPc} (h : w.exposed = true) :
    w.started = true := by
  cases w <;> first | rfl | cases h

@[grind →] theorem state_of_closing {w : WorkerPc} (h : w.closing = true) :
    w.state = .beforeReuseable ∧ w ≠ .setRunning := by
  cases w <;> first | exact ⟨rfl, by simp⟩ | cases h

end WorkerPc

namespace GuardPc

/-- The guard holds the lock. -/
def locked : GuardPc → Bool
  | .away | .readClock | .lock _ => false
  | _ => true

/-- The guard has found a timeout and has not finished with it. -/
def struck : GuardPc → Bool
  | .away | .readClock | .lock _ | .recheck _ | .compare _ | .unlock => false
  | _ => true

/-- The guard has seen the state `CONNECTION_RUNNING` under the lock. -/
def seen : GuardPc → Bool
  | .compare _ => true
  | g => g.struck

/-- The guard has set `timedout`. -/
def hasSet : GuardPc → Bool
  | .setTimedout => false
  | g => g.struck

/-- The guard has waited for `CONNECTION_BEFORE_REUSEABLE`. -/
def waited : GuardPc → Bool
  | .setTimedout | .testFd | .shutdownFd | .closeFd | .waitClient => false
  | g => g.struck

/-- In front of the write to `thiz->fd`. -/
def usesFd : GuardPc → Bool
  | .compare _ | .setTimedout | .testFd | .shutdownFd | .closeFd | .waitClient | .clearFd => true
  | _ => false

@[grind →] theorem seen_of_struck {g : GuardPc} (h : g.struck = true) : g.seen = true := by
  cases g <;> first | rfl | cases h

@[grind →] theorem locked_of_seen {g : GuardPc} (h : g.seen = true) : g.locked = true := by
  cases g <;> first | rfl | cases h

@[grind →] theorem struck_of_hasSet {g : GuardPc} (h : g.hasSet = true) : g.struck = true := by
  cases g <;> first | rfl | cases h

@[grind →] theorem hasSet_of_waited {g : GuardPc} (h : g.waited = true) : g.hasSet = true := by
  cases g <;> first | rfl | cases h

@[grind →] theorem seen_of_usesFd {g : GuardPc} (h : g.usesFd = true) : g.seen = true := by
  cases g <;> first | rfl | cases h

@[grind =] theorem struck_setTimedout : setTimedout.struck = true := rfl

end GuardPc

/-! ## The invariant -/

namespace Connection

structure Inv (c : Connection) : Prop where
  state : c.state = c.worker.state
  workerLock : c.mutex = some .worker ↔ c.worker.locked = true
  guardLock : c.mutex = some .guard ↔ c.guard.locked = true
  seen : c.guard.seen = true → c.worker.exposed = true
  waited : c.guard.waited = true → c.worker.closing = true
  timedout : c.timedout = true →
    (c.guard.hasSet = true ∨ c.worker.closing = true ∨ c.worker = .reusableClear)
  set : c.guard.hasSet = true → c.timedout = true
  noFd : c.worker.noFd = true → c.fd = none
  runFd : (c.worker.state = .running ∨ c.worker = .setRunning) → c.fd = some c.peer
  peerFd : ∀ fd ∈ c.fd, fd = c.peer
  usesFd : c.guard.usesFd = true → c.fd = some c.peer

theorem inv_created (clock : Nat) : Inv (created clock) := by
  constructor <;> simp [created, WorkerPc.state, WorkerPc.locked, GuardPc.locked, GuardPc.seen,
    GuardPc.struck, GuardPc.hasSet, GuardPc.waited, GuardPc.usesFd]

/-! ## Steps inside a region -/

/-- The fields the invariant reads. -/
def shared (c : Connection) :=
  (c.state, c.timedout, c.fd, c.startTime, c.mutex, c.peer, c.clock, c.run, c.lockRun, c.guard)

variable {timeout : Int} {c c' : Connection} {x : Choice}

/-- A step of the worker inside a region that leaves the shared fields alone. -/
theorem Inv.of_shared (hi : Inv c) (hs : c'.shared = c.shared)
    (hr : c'.worker.region = c.worker.region) : Inv c' := by
  simp only [shared, Prod.mk.injEq] at hs
  simp only [WorkerPc.region, Prod.mk.injEq, List.cons.injEq, decide_eq_decide, and_true] at hr
  obtain ⟨h₁, h₂, h₃, h₄, h₅, h₆, h₇, h₈, h₉, h₁₀⟩ := hs
  obtain ⟨r₁, r₂, r₃, r₄, r₅, r₆, r₇⟩ := hr
  have hexp : c'.worker.exposed = c.worker.exposed := by simp [WorkerPc.exposed, r₁, r₃]
  constructor
  · rw [h₁, r₁]; exact hi.state
  · rw [h₅, r₂]; exact hi.workerLock
  · rw [h₅, h₁₀]; exact hi.guardLock
  · rw [h₁₀, hexp]; exact hi.seen
  · rw [h₁₀, r₃]; exact hi.waited
  · rw [h₂, h₁₀, r₃, r₆]; exact hi.timedout
  · rw [h₂, h₁₀]; exact hi.set
  · rw [r₄, h₃]; exact hi.noFd
  · rw [r₁, r₇, h₃, h₆]; exact hi.runFd
  · rw [h₃, h₆]; exact hi.peerFd
  · rw [h₁₀, h₃, h₆]; exact hi.usesFd

theorem workerStep_within (hw : c.worker.boundary = false) (h : workerStep c x = some c') :
    c'.shared = c.shared ∧ c'.worker.region = c.worker.region := by
  unfold workerStep at h
  split at h <;> rename_i hpc <;> rw [hpc] at hw <;> (try cases hw) <;>
    (split at h <;> try contradiction)
  all_goals (try split at h) <;> try contradiction
  all_goals
    simp only [Option.some.injEq] at h
    subst h
    refine ⟨rfl, ?_⟩
    rw [hpc]
    first
    | rfl
    | exact WorkerPc.region_afterDone _
    | exact congrArg _ hpc
    | (dsimp only; split <;> rfl)

/-- Only the worker writes `state`, and where it is tells what it has written. -/
theorem workerStep_state (h : workerStep c x = some c') (hs : c.state = c.worker.state) :
    c'.state = c'.worker.state := by
  by_cases hb : c.worker.boundary = false
  · obtain ⟨hshared, hr⟩ := workerStep_within hb h
    have hst : c'.state = c.state := congrArg Prod.fst hshared
    have hw : c'.worker.state = c.worker.state := congrArg Prod.fst hr
    rw [hst, hw, hs]
  unfold workerStep at h
  split at h <;> rename_i hpc <;> rw [hpc] at hb hs <;> (try exact absurd rfl hb) <;>
    (split at h <;> try contradiction)
  all_goals (try split at h) <;> try contradiction
  all_goals
    simp only [Option.some.injEq, Option.map_eq_some_iff] at h
    first | subst h | obtain ⟨u, -, rfl⟩ := h
    simp only [deref, close]
    first | exact hs | rfl

/-- What the guard leaves alone. -/
theorem guardStep_frame (h : guardStep timeout c = some c') :
    c'.worker = c.worker ∧ c'.state = c.state ∧ c'.requestPool = c.requestPool ∧ c'.r = c.r ∧
      c'.pools = c.pools ∧ c'.contentFd = c.contentFd ∧ c'.status = c.status ∧
      c'.peer = c.peer ∧ c'.run = c.run := by
  unfold guardStep at h
  split at h <;> (try split at h) <;> try contradiction
  all_goals
    simp only [Option.some.injEq] at h
    subst h
    exact ⟨rfl, rfl, rfl, rfl, rfl, rfl, rfl, rfl, rfl⟩

/-! ## All steps -/

theorem Inv.worker (hi : Inv c) (h : workerStep c x = some c') : Inv c' := by
  by_cases hb : c.worker.boundary = false
  · obtain ⟨hs, hr⟩ := workerStep_within hb h
    exact hi.of_shared hs hr
  obtain ⟨hstate, hwl, hgl, hseen, hwaited, htimed, hset, hnoFd, hrunFd, hpeer, huses⟩ := hi
  unfold workerStep at h
  split at h <;> rename_i hpc <;> rw [hpc] at hb <;> (try exact absurd rfl hb) <;>
    (split at h <;> try contradiction)
  all_goals (try split at h) <;> try contradiction
  all_goals
    simp only [Option.some.injEq, Option.map_eq_some_iff] at h
    first | subst h | obtain ⟨u, -, rfl⟩ := h
    rw [hpc] at hstate hwl hseen hwaited htimed hnoFd hrunFd
    simp only [WorkerPc.state, WorkerPc.locked, WorkerPc.closing, WorkerPc.exposed,
      WorkerPc.noFd] at hstate hwl hseen hwaited htimed hnoFd hrunFd
    constructor
  all_goals
    simp only [WorkerPc.state, WorkerPc.locked, WorkerPc.closing, WorkerPc.exposed,
      WorkerPc.noFd, deref, close]
  all_goals first | assumption | grind -ring -linarith

theorem Inv.guard (hi : Inv c) (h : guardStep timeout c = some c') :
    Inv c' := by
  obtain ⟨hstate, hwl, hgl, hseen, hwaited, htimed, hset, hnoFd, hrunFd, hpeer, huses⟩ := hi
  unfold guardStep at h
  split at h <;> rename_i hpc
  all_goals (try split at h) <;> try contradiction
  all_goals
    simp only [Option.some.injEq] at h
    subst h
    rw [hpc] at hgl hseen hwaited htimed hset huses
    simp only [GuardPc.locked, GuardPc.struck, GuardPc.seen, GuardPc.hasSet, GuardPc.waited,
      GuardPc.usesFd, Bool.false_eq_true, false_implies, true_implies]
      at hgl hseen hwaited htimed hset huses
    constructor
  all_goals
    simp only [deref, close, GuardPc.locked, GuardPc.struck, GuardPc.seen, GuardPc.hasSet,
      GuardPc.waited, GuardPc.usesFd, Bool.false_eq_true, false_implies, true_implies, reduceCtorEq]
  all_goals first | assumption | grind -ring -linarith [WorkerPc.exposed]

theorem Inv.tick (hi : Inv c) (d : Nat) : Inv { c with clock := c.clock + d } :=
  { hi with }

theorem Inv.step (hi : Inv c) {m : Move}
    (h : c.step timeout m = some c') : Inv c' := by
  cases m with
  | worker x => exact hi.worker h
  | guard => exact hi.guard h
  | tick d =>
      cases h
      exact hi.tick d

/-- The invariant holds in every state of every run. -/
theorem inv_of_reaches {ok : Connection → Move → Prop} {clock : Nat}
    (h : Reaches (step timeout) ok (created clock) c) : Inv c :=
  h.invariant (fun _ _ _ hi _ hst => hi.step hst) (inv_created clock)

end Connection

end XwpServer
