/-
  XwpServer.UpstreamAbort

  A backend exchange that another thread aborts (`module_uwsgi.c`).

  Both sides take the descriptor out of the upstream under the mutex, so it is closed once
  in every interleaving.  But `upstream_uwsgi_process` reads it without the mutex in front
  of each of its calls, and each of them asserts that it is there: between two calls an
  abort stops the server.
-/

import XwpServer.Lib.Transition
import Mathlib.Data.List.Basic

namespace XwpServer

open Transition

namespace UpstreamAbort

/-! ## The two threads -/

/-- The calls of `upstream_uwsgi_process` that are handed the descriptor. -/
inductive BackendCall where
  | nwriteHead | nwriteBody | statusLine | headerLine | contentBody
  deriving DecidableEq, Repr

/-- `upstream_uwsgi_create` and `upstream_uwsgi_process`: in front of a call, and in it. -/
inductive WorkerPc where
  | connect | publish | setRunning
  | before (c : BackendCall)
  | inside (c : BackendCall)
  | setIdle | lock | testFd | close | clearFd | unlock | finished
  /-- There is no backend: `upstream_uwsgi_create` returns NULL. -/
  | absent
  deriving DecidableEq, Repr

/-- `upstream_uwsgi_abort`; at `idle` it can be called. -/
inductive AborterPc where
  | idle | lock | testFd | testRunning | close | clearFd | wait | unlock
  deriving DecidableEq, Repr

inductive Thread where
  | worker | aborter
  deriving DecidableEq, Repr

/-- The upstream with both threads.  `peer` is what the connection was made on, `closed`
    what has been closed, and `failed` an assertion that has failed. -/
structure Upstream where
  worker : WorkerPc := .connect
  aborter : AborterPc := .idle
  fd : Int := -1
  running : Bool
  mutex : Option Thread := none
  hasBody : Bool
  peer : Int := -1
  closed : List Int := []
  failed : Bool := false
  deriving DecidableEq, Repr

inductive Move where
  /-- A step of the worker; `ret` is what its call returns. -/
  | worker (ret : Int)
  | aborter
  deriving DecidableEq, Repr

/-- Where `upstream_uwsgi_process` goes on when a call has succeeded. -/
def afterCall (hasBody : Bool) : BackendCall → WorkerPc
  | .nwriteHead => if hasBody then .before .nwriteBody else .before .statusLine
  | .nwriteBody => .before .statusLine
  | .statusLine => .before .headerLine
  | .headerLine => .before .contentBody
  | .contentBody => .setIdle

def workerStep (s : Upstream) (ret : Int) : Option Upstream :=
  match s.worker with
  | .connect =>
    if 0 ≤ ret then some { s with fd := ret, peer := ret, worker := .publish }
    else some { s with worker := .absent }
  | .publish => some { s with worker := .setRunning }
  | .setRunning => some { s with running := true, worker := .before .nwriteHead }
  | .before c =>
    -- the descriptor is read and handed to the call, which asserts it
    if 0 ≤ s.fd then some { s with worker := .inside c } else some { s with failed := true }
  | .inside c => some { s with worker := if ret = 0 then .setIdle else afterCall s.hasBody c }
  | .setIdle => some { s with running := false, worker := .lock }
  | .lock =>
    if s.mutex = none then some { s with mutex := some .worker, worker := .testFd } else none
  | .testFd => some { s with worker := if 0 ≤ s.fd then .close else .unlock }
  | .close => some { s with closed := s.fd :: s.closed, worker := .clearFd }
  | .clearFd => some { s with fd := -1, worker := .unlock }
  | .unlock => some { s with mutex := none, worker := .finished }
  | .finished | .absent => none

/-- The upstream has been put into the request, where the other thread finds it. -/
def WorkerPc.published : WorkerPc → Bool
  | .connect | .publish | .absent => false
  | _ => true

def aborterStep (s : Upstream) : Option Upstream :=
  match s.aborter with
  | .idle => if s.worker.published then some { s with aborter := .lock } else none
  | .lock =>
    if s.mutex = none then some { s with mutex := some .aborter, aborter := .testFd } else none
  | .testFd => some { s with aborter := if 0 ≤ s.fd then .testRunning else .unlock }
  | .testRunning => some { s with aborter := if s.running then .close else .unlock }
  | .close => some { s with closed := s.fd :: s.closed, aborter := .clearFd }
  | .clearFd => some { s with fd := -1, aborter := .wait }
  | .wait => if s.running then some s else some { s with aborter := .unlock }
  | .unlock => some { s with mutex := none, aborter := .idle }

/-- A failed assertion ends the process. -/
def step (s : Upstream) (m : Move) : Option Upstream :=
  if s.failed then none
  else
    match m with
    | .worker ret => workerStep s ret
    | .aborter => aborterStep s

/-- The upstream as `pool_alloc` returns it: `running` is what the memory holds. -/
def created (running hasBody : Bool) : Upstream := { running := running, hasBody := hasBody }

/-! ## What an abort must not do -/

/-- `upstream_uwsgi_process` has set `running`. -/
def WorkerPc.started : WorkerPc → Bool
  | .connect | .publish | .setRunning | .absent => false
  | _ => true

structure AbortSafe (s : Upstream) : Prop where
  /-- No call has been handed a descriptor that is gone. -/
  asserted : s.failed = false
  /-- The descriptor is closed at most once. -/
  once : s.closed = [] ∨ s.closed = [s.peer]
  /-- It has been when `upstream_uwsgi_process` returns. -/
  closed : s.worker = .finished → s.closed = [s.peer]
  /-- An abort only waits for what `upstream_uwsgi_process` has set itself. -/
  waits : s.aborter = .wait → s.running = true → s.worker.started = true

namespace WorkerPc

/-- In front of a call. -/
def isBefore : WorkerPc → Bool
  | .before _ => true
  | _ => false

/-- In a call that has another one behind it. -/
def goesOn : WorkerPc → Bool
  | .inside .contentBody => false
  | .inside _ => true
  | _ => false

/-- There is a backend, and the descriptor is not about to be cleared. -/
def leavesFd : WorkerPc → Bool
  | .connect | .absent | .clearFd => false
  | _ => true

/-- With the mutex. -/
def locked : WorkerPc → Bool
  | .testFd | .close | .clearFd | .unlock => true
  | _ => false

end WorkerPc

namespace AborterPc

def locked : AborterPc → Bool
  | .idle | .lock => false
  | _ => true

/-- It has seen `running`. -/
def struck : AborterPc → Bool
  | .close | .clearFd | .wait => true
  | _ => false

end AborterPc

/-- An abort does not come between two calls, it makes the call fail that it comes into,
    and it does not take the memory of `running` for what it is to become. -/
def abortsInCall (s : Upstream) (m : Move) : Prop :=
  match m with
  | .aborter =>
    (s.aborter = .clearFd → s.worker.isBefore = false) ∧
      (s.aborter = .testRunning → s.running = true → s.worker.started = true)
  | .worker ret => s.worker.goesOn = true → s.fd < 0 → ret = 0

instance (s : Upstream) (m : Move) : Decidable (abortsInCall s m) :=
  match m with
  | .aborter => inferInstanceAs (Decidable (_ ∧ _))
  | .worker _ => inferInstanceAs (Decidable (_ → _))

/-! ## The invariant -/

/-- One side has closed the descriptor and not yet taken it out of the upstream. -/
def Upstream.closing (s : Upstream) : Prop := s.worker = .clearFd ∨ s.aborter = .clearFd

structure Inv (s : Upstream) : Prop where
  failed : s.failed = false
  workerLock : s.mutex = some .worker ↔ s.worker.locked = true
  aborterLock : s.mutex = some .aborter ↔ s.aborter.locked = true
  /-- The descriptor is there, or it has been closed. -/
  fd : s.worker ≠ .connect → s.worker ≠ .absent → ¬ s.closing →
    0 ≤ s.peer ∧ (s.fd = s.peer ∧ s.closed = [] ∨ s.fd = -1 ∧ s.closed = [s.peer])
  closing : s.closing → 0 ≤ s.peer ∧ s.fd = s.peer ∧ s.closed = [s.peer]
  early : s.worker.started = false → s.closed = []
  idle : s.worker.published = false → s.aborter = .idle
  held : s.worker = .close ∨ s.aborter = .close ∨ s.aborter = .testRunning → 0 ≤ s.fd
  taken : s.worker = .unlock ∨ s.worker = .finished → s.fd < 0
  before : s.worker.isBefore = true → 0 ≤ s.fd
  struck : s.aborter.struck = true → s.worker.started = true

theorem inv_created (running hasBody : Bool) : Inv (created running hasBody) := by
  constructor <;> simp [created, WorkerPc.locked, AborterPc.locked, WorkerPc.isBefore,
    AborterPc.struck, Upstream.closing]

section Preservation

variable {s s' : Upstream}

theorem published_of_started {w : WorkerPc} (h : w.started = true) : w.published = true := by
  cases w <;> first | rfl | cases h

/-- Behind a call, the exchange is over or the next call comes. -/
theorem afterCall_cases (hasBody : Bool) (c : BackendCall) :
    afterCall hasBody c = .setIdle ∨
      (WorkerPc.inside c).goesOn = true ∧ ∃ c', afterCall hasBody c = .before c' := by
  cases c with
  | contentBody => exact .inl rfl
  | nwriteHead => cases hasBody <;> exact .inr ⟨rfl, _, rfl⟩
  | nwriteBody | statusLine | headerLine => exact .inr ⟨rfl, _, rfl⟩

/-- The mutex is held by one side. -/
theorem Inv.not_both (hi : Inv s) (hw : s.worker.locked = true) : s.aborter.locked = false := by
  rw [Bool.eq_false_iff]
  intro ha
  exact absurd ((hi.workerLock.2 hw).symm.trans (hi.aborterLock.2 ha)) (by simp)

theorem Inv.worker_outside (hi : Inv s) (ha : s.aborter.locked = true) :
    s.worker.locked = false := by
  rw [Bool.eq_false_iff]
  intro hw
  have hout := hi.not_both hw
  rw [ha] at hout
  cases hout

/-- Whoever is about to close the descriptor has the one of the connection. -/
theorem Inv.closeReady (hi : Inv s) (h : s.worker = .close ∨ s.aborter = .close) :
    0 ≤ s.peer ∧ s.fd = s.peer ∧ s.closed = [] := by
  have hopen : 0 ≤ s.fd := hi.held (h.imp_right .inl)
  have hstart : s.worker.started = true := by
    rcases h with hw | ha
    · rw [hw]; rfl
    · exact hi.struck (by rw [ha]; rfl)
  -- the other side does not stand between its close and the descriptor
  have hclosing : ¬ s.closing := by
    rintro (hw | ha)
    · have hlock := hi.not_both (by rw [hw]; rfl)
      rcases h with hw' | ha
      · rw [hw] at hw'; cases hw'
      · rw [ha] at hlock; cases hlock
    · rcases h with hw | ha'
      · have hlock := hi.not_both (by rw [hw]; rfl)
        rw [ha] at hlock; cases hlock
      · rw [ha] at ha'; cases ha'
  have hfd := hi.fd (fun hw => by rw [hw] at hstart; cases hstart)
    (fun hw => by rw [hw] at hstart; cases hstart) hclosing
  obtain ⟨hpeer, h | h⟩ := hfd
  · exact ⟨hpeer, h⟩
  · omega

/-- A step of the worker that leaves the descriptor alone. -/
theorem Inv.workerMoves (hi : Inv s) {pc : WorkerPc} {mutex : Option Thread} {running : Bool}
    (hfrom : s.worker.leavesFd = true) (hto : pc.leavesFd = true)
    (hstarted : s.worker.started = true → pc.started = true)
    (hpublished : s.worker.published = true → pc.published = true)
    (hlock : mutex = some .worker ↔ pc.locked = true)
    (hother : mutex = some .aborter ↔ s.aborter.locked = true)
    (hheld : pc = .close → 0 ≤ s.fd) (htaken : pc = .unlock ∨ pc = .finished → s.fd < 0)
    (hbefore : pc.isBefore = true → 0 ≤ s.fd) :
    Inv { s with worker := pc, mutex := mutex, running := running } where
  failed := hi.failed
  workerLock := hlock
  aborterLock := hother
  fd _ _ hno := by
    refine hi.fd (fun h => ?_) (fun h => ?_) fun h => hno (h.imp_left fun h => ?_)
    all_goals
      rw [h] at hfrom
      cases hfrom
  closing h := hi.closing (h.imp_left fun h => by rw [show pc = .clearFd from h] at hto; cases hto)
  early h := hi.early (Bool.eq_false_iff.mpr fun hs => by rw [hstarted hs] at h; cases h)
  idle h := hi.idle (Bool.eq_false_iff.mpr fun hs => by rw [hpublished hs] at h; cases h)
  held h := h.elim hheld fun h => hi.held (.inr h)
  taken := htaken
  before := hbefore
  struck h := hstarted (hi.struck h)

/-- The connection is made, and nobody else knows of it. -/
theorem Inv.connected (hi : Inv s) (hpc : s.worker = .connect) {fd : Int} (hfd : 0 ≤ fd) :
    Inv { s with fd := fd, peer := fd, worker := .publish } := by
  have hclosed : s.closed = [] := hi.early (by rw [hpc]; rfl)
  have hidle : s.aborter = .idle := hi.idle (by rw [hpc]; rfl)
  have hnone : ¬ { s with fd := fd, peer := fd, worker := .publish }.closing := by
    rintro (h | h)
    · cases h
    · rw [hidle] at h
      cases h
  exact {
    failed := hi.failed
    workerLock := hi.workerLock.trans (by rw [hpc]; exact Iff.rfl)
    aborterLock := hi.aborterLock
    fd := fun _ _ _ => ⟨hfd, .inl ⟨rfl, hclosed⟩⟩
    closing := fun h => absurd h hnone
    early := fun _ => hclosed
    idle := fun _ => hidle
    held := fun _ => hfd
    taken := by rintro (h | h) <;> cases h
    before := fun h => by cases h
    struck := fun h => by rw [hidle] at h; cases h }

/-- No connection is made. -/
theorem Inv.refused (hi : Inv s) (hpc : s.worker = .connect) :
    Inv { s with worker := .absent } := by
  have hidle : s.aborter = .idle := hi.idle (by rw [hpc]; rfl)
  have hclosed : s.closed = [] := hi.early (by rw [hpc]; rfl)
  exact {
    failed := hi.failed
    workerLock := hi.workerLock.trans (by rw [hpc]; exact Iff.rfl)
    aborterLock := hi.aborterLock
    fd := fun _ habsent => absurd rfl habsent
    closing := by
      rintro (h | h)
      · cases h
      · rw [hidle] at h
        cases h
    early := fun _ => hclosed
    idle := fun _ => hidle
    held := by
      rintro (h | h | h)
      · cases h
      all_goals
        rw [hidle] at h
        cases h
    taken := by rintro (h | h) <;> cases h
    before := fun h => by cases h
    struck := fun h => by rw [hidle] at h; cases h }

/-- The worker has closed the descriptor under the mutex. -/
theorem Inv.workerCloses (hi : Inv s) (hpc : s.worker = .close) :
    Inv { s with closed := s.fd :: s.closed, worker := .clearFd } := by
  obtain ⟨hpeer, hfd, hclosed⟩ := hi.closeReady (.inl hpc)
  have hout := hi.not_both (by rw [hpc]; rfl)
  exact {
    failed := hi.failed
    workerLock := hi.workerLock.trans (by rw [hpc]; exact Iff.rfl)
    aborterLock := hi.aborterLock
    fd := fun _ _ hno => absurd (.inl rfl) hno
    closing := fun _ => ⟨hpeer, hfd, by rw [hfd, hclosed]⟩
    early := fun h => by cases h
    idle := fun h => by cases h
    held := fun _ => show 0 ≤ s.fd by omega
    taken := by rintro (h | h) <;> cases h
    before := fun h => by cases h
    struck := fun _ => rfl }

/-- The worker takes the closed descriptor out of the upstream. -/
theorem Inv.workerClears (hi : Inv s) (hpc : s.worker = .clearFd) :
    Inv { s with fd := -1, worker := .unlock } := by
  obtain ⟨hpeer, -, hclosed⟩ := hi.closing (.inl hpc)
  have hout := hi.not_both (by rw [hpc]; rfl)
  exact {
    failed := hi.failed
    workerLock := hi.workerLock.trans (by rw [hpc]; exact Iff.rfl)
    aborterLock := hi.aborterLock
    fd := fun _ _ _ => ⟨hpeer, .inr ⟨rfl, hclosed⟩⟩
    closing := by
      rintro (h | h)
      · cases h
      · rw [h] at hout
        cases hout
    early := fun h => by cases h
    idle := fun h => by cases h
    held := by
      rintro (h | h | h)
      · cases h
      all_goals
        rw [h] at hout
        cases hout
    taken := fun _ => show (-1 : Int) < 0 by decide
    before := fun h => by cases h
    struck := fun _ => rfl }

/-- A step of the worker keeps the invariant, if a call that has been aborted fails. -/
theorem Inv.worker (hi : Inv s) {ret : Int} (hok : abortsInCall s (.worker ret))
    (h : workerStep s ret = some s') : Inv s' := by
  have hok : s.worker.goesOn = true → s.fd < 0 → ret = 0 := hok
  -- where the mutex does not change hands
  have hsame : ∀ {pc : WorkerPc}, pc.locked = s.worker.locked →
      (s.mutex = some .worker ↔ pc.locked = true) := fun hpc => by
    rw [hpc]
    exact hi.workerLock
  cases hpc : s.worker with
  | connect =>
      simp only [workerStep, hpc] at h
      split at h <;> cases h
      · exact hi.connected hpc ‹_›
      · exact hi.refused hpc
  | publish =>
      simp only [workerStep, hpc, Option.some.injEq] at h
      subst h
      exact hi.workerMoves (by rw [hpc]; rfl) rfl (fun h => by rw [hpc] at h; cases h) (fun _ => rfl)
        (hsame (by rw [hpc]; rfl)) hi.aborterLock (by simp) (by simp) (by simp [WorkerPc.isBefore])
  | setRunning =>
      simp only [workerStep, hpc, Option.some.injEq] at h
      subst h
      -- no abort has come so far
      have hopen : 0 ≤ s.fd := by
        have hclosed := hi.early (by rw [hpc]; rfl)
        by_cases hc : s.closing
        · have := (hi.closing hc).2.2
          rw [hclosed] at this
          cases this
        · obtain ⟨hpeer, ⟨hfd, -⟩ | ⟨-, hgone⟩⟩ := hi.fd (by simp [hpc]) (by simp [hpc]) hc
          · rw [hfd]
            exact hpeer
          · rw [hclosed] at hgone
            cases hgone
      exact hi.workerMoves (by rw [hpc]; rfl) rfl (fun _ => rfl) (fun _ => rfl)
        (hsame (by rw [hpc]; rfl)) hi.aborterLock (by simp) (by simp) fun _ => hopen
  | before c =>
      have hopen := hi.before (by rw [hpc]; rfl)
      simp only [workerStep, hpc, if_pos hopen, Option.some.injEq] at h
      subst h
      exact hi.workerMoves (by rw [hpc]; rfl) rfl (fun _ => rfl) (fun _ => rfl)
        (hsame (by rw [hpc]; rfl)) hi.aborterLock (by simp) (by simp) (by simp [WorkerPc.isBefore])
  | inside c =>
      simp only [workerStep, hpc, Option.some.injEq] at h
      subst h
      -- a call returns; only a successful one leads to the next, and then it was not aborted
      have hto : (if ret = 0 then .setIdle else afterCall s.hasBody c) = WorkerPc.setIdle ∨
          0 ≤ s.fd ∧ ∃ c', (if ret = 0 then .setIdle else afterCall s.hasBody c) = .before c' := by
        by_cases hret : ret = 0
        · exact .inl (if_pos hret)
        · rw [if_neg hret]
          rcases afterCall_cases s.hasBody c with hend | ⟨hgoes, hnext⟩
          · exact .inl hend
          · refine .inr ⟨?_, hnext⟩
            by_contra hgone
            exact hret (hok (hpc ▸ hgoes) (by omega))
      rcases hto with hto | ⟨hopen, c', hto⟩
      all_goals rw [hto]
      · exact hi.workerMoves (by rw [hpc]; rfl) rfl (fun _ => rfl) (fun _ => rfl)
          (hsame (by rw [hpc]; rfl)) hi.aborterLock (by simp) (by simp) (by simp [WorkerPc.isBefore])
      · exact hi.workerMoves (by rw [hpc]; rfl) rfl (fun _ => rfl) (fun _ => rfl)
          (hsame (by rw [hpc]; rfl)) hi.aborterLock (by simp) (by simp) fun _ => hopen
  | setIdle =>
      simp only [workerStep, hpc, Option.some.injEq] at h
      subst h
      exact hi.workerMoves (by rw [hpc]; rfl) rfl (fun _ => rfl) (fun _ => rfl)
        (hsame (by rw [hpc]; rfl)) hi.aborterLock (by simp) (by simp) (by simp [WorkerPc.isBefore])
  | lock =>
      simp only [workerStep, hpc] at h
      split at h <;> cases h
      next hfree =>
      refine hi.workerMoves (by rw [hpc]; rfl) rfl (fun _ => rfl) (fun _ => rfl)
        (by simp [WorkerPc.locked]) ?_ (by simp) (by simp) (by simp [WorkerPc.isBefore])
      rw [← hi.aborterLock, hfree]
      simp
  | testFd =>
      simp only [workerStep, hpc, Option.some.injEq] at h
      subst h
      -- what the worker finds under the mutex stays
      by_cases hopen : 0 ≤ s.fd
      · rw [if_pos hopen]
        exact hi.workerMoves (by rw [hpc]; rfl) rfl (fun _ => rfl) (fun _ => rfl)
          (hsame (by rw [hpc]; rfl)) hi.aborterLock (fun _ => hopen) (by simp)
          (by simp [WorkerPc.isBefore])
      · rw [if_neg hopen]
        exact hi.workerMoves (by rw [hpc]; rfl) rfl (fun _ => rfl) (fun _ => rfl)
          (hsame (by rw [hpc]; rfl)) hi.aborterLock (by simp) (fun _ => Int.not_le.mp hopen)
          (by simp [WorkerPc.isBefore])
  | close =>
      simp only [workerStep, hpc, Option.some.injEq] at h
      subst h
      exact hi.workerCloses hpc
  | clearFd =>
      simp only [workerStep, hpc, Option.some.injEq] at h
      subst h
      exact hi.workerClears hpc
  | unlock =>
      simp only [workerStep, hpc, Option.some.injEq] at h
      subst h
      have hout := hi.not_both (by rw [hpc]; rfl)
      have hgone := hi.taken (.inl hpc)
      exact hi.workerMoves (by rw [hpc]; rfl) rfl (fun _ => rfl) (fun _ => rfl)
        (by simp [WorkerPc.locked]) (by simp [hout]) (by simp) (fun _ => hgone)
        (by simp [WorkerPc.isBefore])
  | finished | absent =>
      simp only [workerStep, hpc] at h
      cases h

/-- A step of the abort that leaves the descriptor alone. -/
theorem Inv.aborterMoves (hi : Inv s) {pc : AborterPc} {mutex : Option Thread}
    (hpublished : s.worker.published = true) (hopen : s.aborter ≠ .clearFd ∧ pc ≠ .clearFd)
    (hlock : mutex = some .aborter ↔ pc.locked = true)
    (hother : mutex = some .worker ↔ s.worker.locked = true)
    (hheld : pc = .close ∨ pc = .testRunning → 0 ≤ s.fd)
    (hstruck : pc.struck = true → s.worker.started = true) :
    Inv { s with aborter := pc, mutex := mutex } where
  failed := hi.failed
  workerLock := hother
  aborterLock := hlock
  fd hc ha hno := hi.fd hc ha fun h => hno (h.imp_right fun h => absurd h hopen.1)
  closing h := hi.closing (h.imp_right fun h => absurd h hopen.2)
  early := hi.early
  idle h := by rw [hpublished] at h; cases h
  held h := h.elim (fun h => hi.held (.inl h)) hheld
  taken := hi.taken
  before := hi.before
  struck := hstruck

/-- The abort has closed the descriptor under the mutex. -/
theorem Inv.aborterCloses (hi : Inv s) (hpc : s.aborter = .close) :
    Inv { s with closed := s.fd :: s.closed, aborter := .clearFd } := by
  obtain ⟨hpeer, hfd, hclosed⟩ := hi.closeReady (.inr hpc)
  have hstarted := hi.struck (by rw [hpc]; rfl)
  have hout := hi.worker_outside (by rw [hpc]; rfl)
  exact {
    failed := hi.failed
    workerLock := hi.workerLock
    aborterLock := hi.aborterLock.trans (by rw [hpc]; exact Iff.rfl)
    fd := fun _ _ hno => absurd (.inr rfl) hno
    closing := fun _ => ⟨hpeer, hfd, by rw [hfd, hclosed]⟩
    early := fun h => by rw [hstarted] at h; cases h
    idle := fun h => by rw [published_of_started hstarted] at h; cases h
    held := fun _ => show 0 ≤ s.fd by omega
    taken := hi.taken
    before := hi.before
    struck := fun _ => hstarted }

/-- The abort takes the closed descriptor out of the upstream, not in front of a call. -/
theorem Inv.aborterClears (hi : Inv s) (hpc : s.aborter = .clearFd)
    (hbetween : s.worker.isBefore = false) : Inv { s with fd := -1, aborter := .wait } := by
  obtain ⟨hpeer, -, hclosed⟩ := hi.closing (.inr hpc)
  have hstarted := hi.struck (by rw [hpc]; rfl)
  have hout := hi.worker_outside (by rw [hpc]; rfl)
  exact {
    failed := hi.failed
    workerLock := hi.workerLock
    aborterLock := hi.aborterLock.trans (by rw [hpc]; exact Iff.rfl)
    fd := fun _ _ _ => ⟨hpeer, .inr ⟨rfl, hclosed⟩⟩
    closing := by
      rintro (h | h)
      · rw [show s.worker = .clearFd from h] at hout
        cases hout
      · cases h
    early := fun h => by rw [hstarted] at h; cases h
    idle := fun h => by rw [published_of_started hstarted] at h; cases h
    held := by
      rintro (h | h | h)
      · rw [show s.worker = .close from h] at hout
        cases hout
      · cases h
      · cases h
    taken := fun _ => show (-1 : Int) < 0 by decide
    before := fun h => by rw [hbetween] at h; cases h
    struck := fun _ => hstarted }

/-- A step of the abort keeps the invariant, if it does not take the descriptor away in
    front of a call. -/
theorem Inv.aborter (hi : Inv s) (hok : abortsInCall s .aborter)
    (h : aborterStep s = some s') : Inv s' := by
  obtain ⟨hbetween, hmemory⟩ := hok
  have hpublished : s.aborter ≠ .idle → s.worker.published = true := fun hpc => by
    by_contra hno
    exact hpc (hi.idle (by simpa using hno))
  have hsame : ∀ {pc : AborterPc}, pc.locked = s.aborter.locked →
      (s.mutex = some .aborter ↔ pc.locked = true) := fun hpc => by
    rw [hpc]
    exact hi.aborterLock
  cases hpc : s.aborter with
  | idle =>
      simp only [aborterStep, hpc] at h
      split at h <;> cases h
      exact hi.aborterMoves ‹_› (by simp [hpc]) (hsame (by rw [hpc]; rfl)) hi.workerLock (by simp)
        (by simp [AborterPc.struck])
  | lock =>
      simp only [aborterStep, hpc] at h
      split at h <;> cases h
      next hfree =>
      refine hi.aborterMoves (hpublished (by simp [hpc])) (by simp [hpc]) (by simp [AborterPc.locked])
        ?_ (by simp) (by simp [AborterPc.struck])
      rw [← hi.workerLock, hfree]
      simp
  | testFd =>
      simp only [aborterStep, hpc, Option.some.injEq] at h
      subst h
      by_cases hopen : 0 ≤ s.fd
      · rw [if_pos hopen]
        exact hi.aborterMoves (hpublished (by simp [hpc])) (by simp [hpc]) (hsame (by rw [hpc]; rfl))
          hi.workerLock (fun _ => hopen) (by simp [AborterPc.struck])
      · rw [if_neg hopen]
        exact hi.aborterMoves (hpublished (by simp [hpc])) (by simp [hpc]) (hsame (by rw [hpc]; rfl))
          hi.workerLock (by simp) (by simp [AborterPc.struck])
  | testRunning =>
      simp only [aborterStep, hpc, Option.some.injEq] at h
      subst h
      by_cases hrun : s.running = true
      · -- it is the worker that has set `running`
        rw [if_pos hrun]
        exact hi.aborterMoves (hpublished (by simp [hpc])) (by simp [hpc]) (hsame (by rw [hpc]; rfl))
          hi.workerLock (fun _ => hi.held (by simp [hpc])) fun _ => hmemory hpc hrun
      · rw [if_neg hrun]
        exact hi.aborterMoves (hpublished (by simp [hpc])) (by simp [hpc]) (hsame (by rw [hpc]; rfl))
          hi.workerLock (by simp) (by simp [AborterPc.struck])
  | close =>
      simp only [aborterStep, hpc, Option.some.injEq] at h
      subst h
      exact hi.aborterCloses hpc
  | clearFd =>
      simp only [aborterStep, hpc, Option.some.injEq] at h
      subst h
      exact hi.aborterClears hpc (hbetween hpc)
  | wait =>
      simp only [aborterStep, hpc] at h
      split at h <;> cases h
      · exact hi
      · exact hi.aborterMoves (hpublished (by simp [hpc])) (by simp [hpc]) (hsame (by rw [hpc]; rfl))
          hi.workerLock (by simp) (by simp [AborterPc.struck])
  | unlock =>
      simp only [aborterStep, hpc, Option.some.injEq] at h
      subst h
      have hout := hi.worker_outside (by rw [hpc]; rfl)
      exact hi.aborterMoves (hpublished (by simp [hpc])) (by simp [hpc]) (by simp [AborterPc.locked])
        (by simp [hout]) (by simp) (by simp [AborterPc.struck])

theorem Inv.step (hi : Inv s) {m : Move} (hok : abortsInCall s m) (h : step s m = some s') :
    Inv s' := by
  unfold UpstreamAbort.step at h
  rw [hi.failed, if_neg Bool.false_ne_true] at h
  cases m with
  | worker ret => exact hi.worker hok h
  | aborter => exact hi.aborter hok h

end Preservation

/-- What the invariant says of the descriptor and of the abort. -/
theorem Inv.safe {s : Upstream} (hi : Inv s) : AbortSafe s := by
  have hclosed : s.closed = [] ∨ s.closed = [s.peer] := by
    by_cases hc : s.closing
    · exact .inr (hi.closing hc).2.2
    · by_cases hstart : s.worker.started = false
      · exact .inl (hi.early hstart)
      · have hne : s.worker ≠ .connect ∧ s.worker ≠ .absent :=
          ⟨fun h => hstart (by rw [h]; rfl), fun h => hstart (by rw [h]; rfl)⟩
        rcases (hi.fd hne.1 hne.2 hc).2 with h | h
        · exact .inl h.2
        · exact .inr h.2
  refine ⟨hi.failed, hclosed, fun hpc => ?_, fun hpc _ => hi.struck (by rw [hpc]; rfl)⟩
  -- the worker has found the descriptor gone, or has closed it
  have hgone := hi.taken (.inr hpc)
  by_cases hc : s.closing
  · exact (hi.closing hc).2.2
  · obtain ⟨hpeer, h | h⟩ := hi.fd (by rw [hpc]; nofun) (by rw [hpc]; nofun) hc
    · omega
    · exact h.2

/-- An exchange can be aborted safely in every run in which the abort comes into a call. -/
theorem abort_safe {running hasBody : Bool} {s : Upstream}
    (h : Reaches step abortsInCall (created running hasBody) s) : AbortSafe s :=
  (h.invariant (fun _ _ _ hi hok hst => hi.step hok hst) (inv_created running hasBody)).safe

/-- The abort comes into `http_process_status_line`, which then fails. -/
theorem abort_safe_statusLine :
    ∃ s, Reaches step abortsInCall (created false false) s ∧ s.worker = .finished ∧
      s.closed = [5] ∧ AbortSafe s := by
  obtain ⟨s, hrun, hpc, hclosed⟩ : ∃ s, execOf step abortsInCall (created false false)
      [.worker 5, .worker 0, .worker 0, .worker 0, .worker 1, .worker 0,
        .aborter, .aborter, .aborter, .aborter, .aborter, .aborter,
        .worker 0, .worker 0, .aborter, .aborter,
        .worker 0, .worker 0, .worker 0] = some s ∧ s.worker = .finished ∧ s.closed = [5] :=
    ⟨_, rfl, rfl, rfl⟩
  have hreach := reaches_of_execOf hrun
  exact ⟨s, hreach, hpc, hclosed, abort_safe hreach⟩

/-- The abort comes between `nwrite` and `http_process_status_line`. -/
theorem not_abort_safe :
    ¬ ∀ running hasBody s, Reaches step anyMove (created running hasBody) s → AbortSafe s := by
  intro h
  obtain ⟨s, hrun, hfailed⟩ : ∃ s, exec step (created false false)
      [.worker 5, .worker 0, .worker 0, .worker 0, .worker 1,
        .aborter, .aborter, .aborter, .aborter, .aborter, .aborter, .worker 0] = some s ∧
      s.failed = true := ⟨_, rfl, rfl⟩
  have hsafe := (h false false s (reaches_of_exec hrun)).asserted
  rw [hfailed] at hsafe
  cases hsafe

/-- An abort in front of `upstream_uwsgi_process` waits for the memory of `running`. -/
theorem abort_waits_for_memory :
    ∃ s, Reaches step anyMove (created true false) s ∧ s.aborter = .wait ∧
      s.worker.started = false ∧ step s .aborter = some s := by
  obtain ⟨s, hrun, hpc, hstart, hstep⟩ : ∃ s, exec step (created true false)
      [.worker 5, .worker 0, .aborter, .aborter, .aborter, .aborter, .aborter, .aborter] = some s ∧
      s.aborter = .wait ∧ s.worker.started = false ∧ step s .aborter = some s :=
    ⟨_, rfl, rfl, rfl, rfl⟩
  exact ⟨s, reaches_of_exec hrun, hpc, hstart, hstep⟩

end UpstreamAbort

end XwpServer
