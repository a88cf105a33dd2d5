/-
  XwpServer.Descriptors

  The descriptors of a connection: the client's, those of the files it is served, and
  those of the backends that are asked.

  The worker closes what it has opened, each at one place of `connection_run`; the
  client's descriptor may be closed by the guard before, which takes it out of the
  connection under the lock.
-/

import XwpServer.ConnectionInv

namespace XwpServer

open Transition

namespace WorkerPc

/-- `connection_run` in front of the store of the descriptor. -/
def entering : WorkerPc → Bool
  | .createPool | .createRequest | .setStartTime | .setFd => true
  | _ => false

/-- A file may be open. -/
def serving : WorkerPc → Bool
  | .doneTest | .sendHead | .sendBody | .closeFile _ => true
  | _ => false

/-- A backend may be connected. -/
def exchanging : WorkerPc → Bool
  | .upstreamRun | .upstreamExchange | .upstreamDone | .upstreamLock | .upstreamClose => true
  | _ => false

theorem exchanging_of_closing {w : WorkerPc} (h : w.closing = true) : w.exchanging = false := by
  cases w <;> first | rfl | exact absurd h (by decide)

theorem entering_of_exposed {w : WorkerPc} (h : w.exposed = true) : w.entering = false := by
  cases w <;> first | rfl | exact absurd h (by decide)

end WorkerPc

/-- The guard has closed the client's descriptor and not yet taken it out of the
    connection. -/
def GuardPc.closedFd : GuardPc → Bool
  | .waitClient | .clearFd => true
  | _ => false

namespace Connection

variable {timeout : Int} {clock : Nat} {c c' : Connection}

/-- The requests of `connection_run` are set up, the head of an answer with a file is sent,
    and no timeout comes between opening the file and sending the answer. -/
def closesAll (c : Connection) (m : Move) : Prop :=
  (m = .worker (.result false) → c.worker ≠ .createPool ∧ c.worker ≠ .createRequest ∧
      (c.worker = .sendHead → c.contentFd = none)) ∧
    (m = .worker .next → c.worker = .doneTest → c.timedout = true → c.contentFd = none)

instance (c : Connection) (m : Move) : Decidable (closesAll c m) :=
  inferInstanceAs (Decidable (_ ∧ _))

/-- The client's descriptor, while it is open. -/
def heldClient (c : Connection) : List Nat :=
  if c.worker.entering then [c.peer] else if c.guard.closedFd then [] else c.fd.toList

/-- The descriptors the connection holds: the client's, a file's, a backend's. -/
def heldDescs (c : Connection) : List Nat :=
  c.heldClient ++ (c.contentFd.toList ++ (c.upstream.bind (·.fd)).toList)

structure DescInv (c : Connection) : Prop where
  accounts : c.descs.Accounts c.heldDescs
  content : c.worker.serving = false → c.contentFd = none
  served : c.worker = .doneTest → c.contentFd ≠ none → c.status = HTTP_STATUS_OK
  backend : c.worker.exchanging = false → c.upstream.bind (·.fd) = none

theorem bind_running (o : Option Upstream) (b : Bool) :
    (o.map ({ · with running := b })).bind (·.fd) = o.bind (·.fd) := by
  cases o <;> rfl

theorem bind_mutex (o : Option Upstream) (t : Option Thread) :
    (o.map ({ · with mutex := t })).bind (·.fd) = o.bind (·.fd) := by
  cases o <;> rfl

theorem bind_noFd (o : Option Upstream) : (o.map ({ · with fd := none })).bind (·.fd) = none := by
  cases o <;> rfl

/-- The guard uses the descriptor of a connection only while the worker is exposed to it. -/
theorem Inv.closedFd (hi : Inv c)
    (hw : c.worker.exposed = false ∨ c.worker.locked = true) : c.guard.closedFd = false := by
  rw [← Bool.not_eq_true]
  intro hg
  have hseen : c.guard.seen = true := by
    cases hpc : c.guard <;> rw [hpc] at hg <;> first | rfl | cases hg
  rcases hw with hw | hw
  · rw [hi.seen hseen] at hw
    cases hw
  · have := (hi.workerLock.mpr hw).symm.trans (hi.guardLock.mpr (GuardPc.locked_of_seen hseen))
    cases this

theorem DescInv.worker {x : Choice} (hi : Inv c) (hd : DescInv c)
    (hok : closesAll c (.worker x)) (h : workerStep c x = some c') : DescInv c' := by
  obtain ⟨hacc, hcontent, hserved, hbackend⟩ := hd
  obtain ⟨hfalse, hnext⟩ := hok
  have hclosed := hi.closedFd
  have hnoFd := hi.noFd
  unfold workerStep at h
  split at h <;> rename_i hpc <;> (split at h <;> try contradiction)
  all_goals (try split at h) <;> try contradiction
  all_goals
    simp only [Option.some.injEq, Option.map_eq_some_iff] at h
    first | subst h | obtain ⟨u, hu, rfl⟩ := h
    rw [hpc] at hcontent hserved hbackend hclosed hnoFd hfalse hnext
    simp only [heldDescs, heldClient, hpc] at hacc
    simp only [WorkerPc.entering, WorkerPc.serving, WorkerPc.exchanging,
      WorkerPc.noFd, true_implies, Bool.false_eq_true, if_false, if_true]
      at hcontent hbackend hacc hnoFd
    try simp only [WorkerPc.afterDone]
    try split
  all_goals constructor
  all_goals try simp only [heldDescs, heldClient, hpc, WorkerPc.entering, WorkerPc.serving,
    WorkerPc.exchanging, close, destroyPool, deref, bind_running, bind_mutex, bind_noFd,
    Bool.false_eq_true, Bool.true_eq_false, if_false, if_true, true_implies, false_implies,
    implies_true, reduceCtorEq]
  all_goals try first | assumption | grind -ring -linarith | simpa using ‹¬c.contentFd.isSome = true›
  all_goals
    simp only [hcontent, hbackend, hnoFd, Option.toList_none, Option.toList_some, List.append_nil,
      List.nil_append, ite_self] at hacc ⊢
    first
    | exact hacc.acquireLast
    | exact hacc.releaseLast
    | exact hacc.acquire
    | (rw [hclosed (.inl rfl)]; exact hacc)
    | (have hbind : u.bind (·.fd) = none := by grind -ring -linarith
       rw [hclosed (.inr rfl)] at hacc
       rw [hbind]
       exact hacc.releaseAll)

/-- The guard closes the client's descriptor once, and finds no backend connected. -/
theorem DescInv.guard (hi : Inv c) (hd : DescInv c) (h : guardStep timeout c = some c') :
    DescInv c' := by
  have hwaited : c.guard.waited = true → c.upstream.bind (·.fd) = none := fun hw =>
    hd.backend (WorkerPc.exchanging_of_closing (hi.waited hw))
  have hentering : c.guard.seen = true → c.worker.entering = false := fun hs =>
    WorkerPc.entering_of_exposed (hi.seen hs)
  obtain ⟨hacc, hcontent, hserved, hbackend⟩ := hd
  simp only [heldDescs, heldClient] at hacc
  unfold guardStep at h
  split at h <;> rename_i hpc <;> rw [hpc] at hwaited hentering <;> (try split at h) <;>
    try contradiction
  all_goals
    simp only [Option.some.injEq] at h
    subst h
    simp only [hpc, GuardPc.closedFd, Bool.false_eq_true, if_false, if_true] at hacc
    refine ⟨?_, hcontent, hserved, ?_⟩
  all_goals
    simp only [heldDescs, heldClient, GuardPc.closedFd, deref, close, bind_mutex, bind_noFd,
      Bool.false_eq_true, if_false, if_true]
  all_goals first
    | assumption
    | exact fun _ => trivial
    | exact fun _ => rfl
    | (rw [hentering rfl] at hacc ⊢
       exact hacc.releaseOpt)
    | (rw [hwaited rfl] at hacc ⊢
       exact hacc)
    | (rw [hentering rfl, hwaited rfl] at hacc
       rw [hentering rfl]
       exact hacc)

theorem DescInv.step (hi : Inv c) (hd : DescInv c) {m : Move} (hok : closesAll c m)
    (h : c.step timeout m = some c') : DescInv c' := by
  cases m with
  | worker x => exact hd.worker hi hok h
  | guard => exact hd.guard hi h
  | tick d =>
      cases h
      exact ⟨hd.accounts, hd.content, hd.served, hd.backend⟩

theorem descInv_created (clock : Nat) : DescInv (created clock) := by
  constructor <;> simp [created, heldDescs, heldClient, Ledger.accounts_empty, WorkerPc.entering,
    GuardPc.closedFd]

theorem descInv_of_reaches (hr : Reaches (step timeout) closesAll (created clock) c) : DescInv c :=
  (hr.invariant (I := fun c => Inv c ∧ DescInv c)
    (fun _ _ _ h hok hst => ⟨h.1.step hst, h.2.step h.1 hok hst⟩)
    ⟨inv_created clock, descInv_created clock⟩).2

/-- In every run in which the requests are set up, the heads of answers with a file are
    sent and no timeout comes between opening a file and sending it, every descriptor has
    been closed exactly once when `connection_run` has returned. -/
theorem descs_closed_once (hr : Reaches (step timeout) closesAll (created clock) c)
    (hpc : c.worker = .returned) : c.descs.Balanced := by
  obtain ⟨hacc, hcontent, -, hbackend⟩ := descInv_of_reaches hr
  have hfd := (inv_of_reaches hr).noFd (by rw [hpc]; rfl)
  rw [heldDescs, hcontent (by rw [hpc]; rfl), hbackend (by rw [hpc]; rfl), heldClient, hpc,
    hfd] at hacc
  exact Ledger.Accounts.balanced (by simpa [WorkerPc.entering] using hacc)

/-- A file is served, and the connection is not kept. -/
def fileMoves : List Move :=
  [.worker (.status 200), .worker .next, .worker .openFile, .worker .next, .worker (.result true),
    .worker (.result true), .worker .next, .worker (.keepAlive false)]

theorem descs_closed_once_file : ∃ c : Connection, c.worker = .returned ∧ c.descs.Balanced := by
  have hrun : (execOf (step 5) closesAll (created 100)
      (acceptMoves ++ fileMoves ++ closeMoves)).map (·.worker) = some .returned := by decide
  obtain ⟨c, hc, hpc⟩ := Option.map_eq_some_iff.mp hrun
  exact ⟨c, hpc, descs_closed_once (reaches_of_execOf hc) hpc⟩

/-- The head of the answer is not sent, and the file stays open. -/
theorem descs_leak_file : ¬ ∀ (timeout : Int) (clock : Nat) (c : Connection),
    Reaches (step timeout) anyMove (created clock) c → c.worker = .returned →
    c.descs.Balanced := by
  intro h
  have hrun : (exec (step 5) (created 100) (acceptMoves ++ fileMoves.take 4 ++
      [.worker (.result false)] ++ closeMoves)).map (fun c => (c.worker, c.descs))
      = some (.returned, ⟨2, [0]⟩) := by decide
  obtain ⟨c, hc, hend⟩ := Option.map_eq_some_iff.mp hrun
  simp only [Prod.mk.injEq] at hend
  have := h 5 100 c (reaches_of_exec hc) hend.1 1
  rw [hend.2] at this
  exact absurd (this (by decide)) (by decide)

end Connection

end XwpServer
