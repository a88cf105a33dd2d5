/-
  XwpServer.OwnSocket

  Which socket a `recv` or `send` of a worker reaches.

  A descriptor number is free again as soon as it is closed, and the next `accept`
  may return it.  The guard closes the descriptor of a connection whose worker is
  still running; what the worker then reads and writes may belong to another client.
-/

import XwpServer.FreeList
import XwpServer.Descriptors

namespace XwpServer

open Transition

/-- The worker is at a `recv` or `send` on the client's descriptor. -/
def WorkerPc.io : WorkerPc → Bool
  | .genRequest | .sendHead | .sendBody => true
  | _ => false

/-- `connection_run` in front of the store of the descriptor, or not yet called. -/
def WorkerPc.arriving (w : WorkerPc) : Bool := w = .idle || w.entering

@[simp] theorem WorkerPc.arriving_afterDone (s : Int) : (afterDone s).arriving = false := by
  unfold afterDone
  split <;> rfl

theorem WorkerPc.arriving_of_exposed {w : WorkerPc} (h : w.exposed = true) :
    w.arriving = false := by
  cases w <;> first | rfl | exact absurd h (by decide)

theorem WorkerPc.running_of_io {w : WorkerPc} (h : w.io = true) : w.state = .running := by
  cases w <;> first | rfl | cases h

namespace Connection

variable {timeout : Int} {c c' : Connection} {x : Choice}

/-- The client's descriptor is open, in the connection or on the way to it. -/
def holdsClient (c : Connection) : Bool :=
  c.worker.arriving || (c.fd.isSome && !c.guard.closedFd)

/-! ## One connection -/

/-- The worker gets to a `recv` or `send` from another place only past a test of
    `timedout`. -/
theorem workerStep_io (h : workerStep c x = some c') (hio : c'.worker.io = true) :
    c.worker.io = true ∨ c.timedout = false := by
  unfold workerStep at h
  split at h <;> rename_i hpc <;> (split at h <;> try contradiction)
  all_goals (try split at h) <;> try contradiction
  all_goals
    simp only [Option.some.injEq, Option.map_eq_some_iff] at h
    first | subst h | obtain ⟨u, -, rfl⟩ := h
    rw [hpc]
    first
    | exact .inl rfl
    | exact .inr (by simpa using ‹¬ c.timedout = true›)
    | simp [deref, WorkerPc.io, hpc] at hio

/-- Where the guard has closed the descriptor the worker does not use it. -/
def Aside (c : Connection) : Prop := c.guard.closedFd = true → c.worker.io = false

theorem workerStep_guard (h : workerStep c x = some c') : c'.guard = c.guard := by
  unfold workerStep at h
  split at h <;> (split at h <;> try contradiction)
  all_goals (try split at h) <;> try contradiction
  all_goals
    simp only [Option.some.injEq, Option.map_eq_some_iff] at h
    first | subst h | obtain ⟨u, -, rfl⟩ := h
    rfl

theorem Aside.worker (hi : Inv c) (ha : c.Aside) (h : workerStep c x = some c') : c'.Aside := by
  intro hclosed
  rw [workerStep_guard h] at hclosed
  rw [← Bool.not_eq_true]
  intro hio
  rcases workerStep_io h hio with hw | htimed
  · rw [ha hclosed] at hw
    cases hw
  · have hset : c.guard.hasSet = true := by
      cases hg : c.guard <;> rw [hg] at hclosed <;> first | rfl | cases hclosed
    rw [hi.set hset] at htimed
    cases htimed

theorem Aside.guard (ha : c.Aside) (hok : c.guard = .closeFd → c.worker.io = false)
    (h : guardStep timeout c = some c') : c'.Aside := by
  intro hclosed
  rw [(guardStep_frame h).1]
  unfold guardStep at h
  split at h <;> rename_i hpc <;> (try split at h) <;> try contradiction
  all_goals
    simp only [Option.some.injEq] at h
    subst h
    first
    | exact hok hpc
    | exact ha (by rw [hpc]; rfl)
    | cases hclosed

/-- A step of the worker does not open the client's descriptor, and one that closes it
    leaves nothing. -/
theorem workerStep_holdsClient (hi : Inv c) (h : workerStep c x = some c')
    (hret : c.worker ≠ .returned) :
    (c'.holdsClient = true → c.holdsClient = true) ∧
      (Server.closesFd c (.worker x) = true → c.holdsClient = true ∧ c'.holdsClient = false) := by
  have hclosed := hi.closedFd
  have hnoFd := hi.noFd
  unfold workerStep at h
  split at h <;> rename_i hpc <;> (split at h <;> try contradiction)
  all_goals (try split at h) <;> try contradiction
  all_goals
    simp only [Option.some.injEq, Option.map_eq_some_iff] at h
    first | subst h | obtain ⟨u, -, rfl⟩ := h
    rw [hpc] at hclosed hnoFd
    simp only [WorkerPc.noFd, WorkerPc.exposed, WorkerPc.locked, WorkerPc.state,
      WorkerPc.closing] at hclosed hnoFd
    simp only [holdsClient, Server.closesFd, hpc, deref, close, destroyPool,
      WorkerPc.arriving_afterDone]
  all_goals try split
  all_goals simp_all [WorkerPc.arriving, WorkerPc.entering]

theorem guardStep_holdsClient (hi : Inv c) (h : guardStep timeout c = some c') :
    (c'.holdsClient = true → c.holdsClient = true) ∧
      (Server.closesFd c .guard = true → c.holdsClient = true ∧ c'.holdsClient = false) := by
  have hseen := hi.seen
  unfold guardStep at h
  split at h <;> rename_i hpc <;> (try split at h) <;> try contradiction
  all_goals
    simp only [Option.some.injEq] at h
    subst h
    rw [hpc] at hseen
    simp only [holdsClient, Server.closesFd, hpc, GuardPc.closedFd, deref, close]
    simp_all [GuardPc.seen, GuardPc.struck, WorkerPc.arriving_of_exposed]

end Connection

namespace Server

variable {n : Nat} {timeout : Int} {s s' : Server n} {l : List (Fin n)}

/-! ## All connections -/

/-- The descriptor of a worker that is here, while it is open. -/
def live (connections : Fin n → Connection) : ListenPc n → Option Accepted
  | .popLock fd | .popHead fd | .popNext fd _ | .popUnlock fd _ => some fd
  | .run fd i => if (connections i).holdsClient then some fd else none
  | _ => none

/-- The guard closes the descriptor of a connection only while its worker is not at a
    `recv` or `send`. -/
def closesAside (s : Server n) (m : Move n) : Prop :=
  m = .guard → ∀ i : Fin n, i.val = s.guardAt → (s.connections i).guard = .closeFd →
    (s.connections i).worker.io = false

instance (s : Server n) (m : Move n) : Decidable (closesAside s m) :=
  inferInstanceAs (Decidable (_ → _))

/-- What each worker has live. -/
def liveFd (s : Server n) (w : Fin n) : Option Accepted := live s.connections (s.workers w)

/-- A number is live for one worker, and denotes the socket that was accepted. -/
structure IoInv (s : Server n) : Prop where
  conn : ∀ i, (s.connections i).Inv
  aside : ∀ i, (s.connections i).Aside
  client : ∀ w fd i, s.workers w = .run fd i → (s.connections i).worker ≠ .idle →
    s.client i = fd
  table : ∀ w fd, s.liveFd w = some fd → s.table fd.number = some fd.socket
  distinct : ∀ w w' fd fd', s.liveFd w = some fd → s.liveFd w' = some fd' →
    fd.number = fd'.number → w = w'

theorem ioInv_create (n clock : Nat) : IoInv (create n clock) where
  conn := fun _ => Connection.inv_created clock
  aside := fun _ h => by cases h
  client := by simp [create]
  table := by simp [create, liveFd, live]
  distinct := by simp [create, liveFd, live]

/-- The table of descriptors behind a step that opens none. -/
theorem IoInv.table_of_sub (hi : IoInv s) (i : Fin n) (closes : Bool)
    (hsub : ∀ w fd, s'.liveFd w = some fd → s.liveFd w = some fd)
    (hclose : closes = true → ∃ w, s.liveFd w = some (s.client i) ∧ s'.liveFd w = none)
    (htable : s'.table = if closes then Function.update s.table (s.client i).number none
      else s.table) (w : Fin n) (fd : Accepted) (hw : s'.liveFd w = some fd) :
    s'.table fd.number = some fd.socket := by
  rw [htable]
  split
  · next hc =>
    obtain ⟨v, hv, hv'⟩ := hclose hc
    rw [Function.update_of_ne]
    · exact hi.table w fd (hsub w fd hw)
    · intro hnum
      rw [hi.distinct w v _ _ (hsub w fd hw) hv hnum, hv'] at hw
      cases hw
  · exact hi.table w fd (hsub w fd hw)

theorem liveFd_of_workers {w : Fin n} {pc : ListenPc n}
    (hw : s'.workers = Function.update s.workers w pc) (hc : s'.connections = s.connections) :
    s'.liveFd = Function.update s.liveFd w (live s.connections pc) := by
  funext v
  simp only [liveFd, hw, hc, Function.update_apply]
  split <;> rfl

theorem IoInv.accept (hi : IoInv s) {w : Fin n} {number : Nat}
    (h : s.step timeout (.accept w number) = some s') : IoInv s' := by
  simp only [step] at h
  split at h <;> try contradiction
  next hw =>
  simp only [Option.some.injEq] at h
  have hlive : s'.liveFd = Function.update s.liveFd w (some ⟨number, s.sockets⟩) :=
    @liveFd_of_workers _ _ _ _ (.popLock ⟨number, s.sockets⟩) (by rw [← h]) (by rw [← h])
  -- the number that `accept` gives out is not in the table, so no worker has it live
  have hother : ∀ v fd, s.liveFd v = some fd → fd.number ≠ number := by
    rintro v fd hv rfl
    rw [hi.table v fd hv] at hw
    cases hw.2
  refine ⟨by rw [← h]; exact hi.conn, by rw [← h]; exact hi.aside, ?_, ?_, ?_⟩
  · intro v fd i hv
    rw [← h] at hv ⊢
    dsimp only at hv
    rw [Function.update_apply] at hv
    split at hv
    · cases hv
    · exact hi.client v fd i hv
  · intro v fd hv
    rw [hlive, Function.update_apply] at hv
    rw [← h]
    split at hv
    · cases hv
      exact Function.update_self ..
    · exact (Function.update_of_ne (hother v fd hv) ..).trans (hi.table v fd hv)
  · intro v v' fd fd' hv hv' hnum
    rw [hlive, Function.update_apply] at hv hv'
    split at hv <;> split at hv'
    · next h₁ h₂ => rw [h₁, h₂]
    · cases hv
      exact absurd hnum.symm (hother v' fd' hv')
    · cases hv'
      exact absurd hnum (hother v fd hv)
    · exact hi.distinct v v' fd fd' hv hv' hnum

/-- A step of a worker that opens no descriptor, outside `connection_run`. -/
theorem IoInv.goto (hi : IoInv s) {w : Fin n} {pc : ListenPc n}
    (hw : s'.workers = Function.update s.workers w pc) (hconn : s'.connections = s.connections)
    (hclient : s'.client = s.client) (htable : s'.table = s.table)
    (hlive : ∀ fd, live s.connections pc = some fd → s.liveFd w = some fd)
    (hrun : ∀ fd i, pc = .run fd i → (s.connections i).worker = .idle) : IoInv s' := by
  have hsub : ∀ v fd, s'.liveFd v = some fd → s.liveFd v = some fd := by
    intro v fd hv
    rw [liveFd_of_workers hw hconn, Function.update_apply] at hv
    split at hv
    · next hvw =>
      rw [hvw]
      exact hlive fd hv
    · exact hv
  refine ⟨by rw [hconn]; exact hi.conn, by rw [hconn]; exact hi.aside, ?_, ?_, ?_⟩
  · intro v fd i hv
    rw [hconn, hclient]
    rw [hw, Function.update_apply] at hv
    split at hv
    · exact fun hidle => absurd (hrun fd i hv) hidle
    · exact hi.client v fd i hv
  · intro v fd hv
    rw [htable]
    exact hi.table v fd (hsub v fd hv)
  · exact fun v v' fd fd' hv hv' => hi.distinct v v' fd fd' (hsub v fd hv) (hsub v' fd' hv')

/-- A connection that is held by a worker outside `connection_run` is idle. -/
theorem FreeInv.worker_idle (hf : FreeInv s l) {w : Fin n} {c : Fin n}
    (hw : (s.workers w).held = some c) (hrun : ∀ fd, s.workers w ≠ .run fd c) :
    (s.connections c).worker = .idle := by
  by_contra hidle
  obtain ⟨v, fd, hv⟩ := hf.busy c hidle
  have : v = w := hf.owned.unique v w c (by rw [owner, hv]; rfl) hw
  subst this
  exact hrun fd hv

theorem IoInv.listen (hf : FreeInv s l) (hi : IoInv s) {w : Fin n}
    (h : s.listenStep w = some s') : IoInv s' := by
  unfold listenStep at h
  split at h <;> rename_i hpc <;> try contradiction
  case h_1 =>
    split at h <;> cases h
    exact hi.goto rfl rfl rfl rfl (fun fd hfd => by rw [liveFd, hpc]; exact hfd) (by simp)
  case h_2 =>
    obtain ⟨c, -, rfl⟩ := Option.map_eq_some_iff.mp h
    exact hi.goto rfl rfl rfl rfl (fun fd hfd => by rw [liveFd, hpc]; exact hfd) (by simp)
  case h_3 =>
    cases h
    exact hi.goto rfl rfl rfl rfl (fun fd hfd => by rw [liveFd, hpc]; exact hfd) (by simp)
  case h_4 fd c =>
    cases h
    refine hi.goto rfl rfl rfl rfl (fun fd' hfd => ?_) ?_
    · rw [liveFd, hpc]
      simp only [live] at hfd ⊢
      split at hfd
      · exact hfd
      · cases hfd
    · rintro fd' i ⟨⟩
      exact hf.worker_idle (w := w) (by rw [hpc]; rfl) (by simp [hpc])
  case h_5 =>
    split at h <;> cases h
    exact hi.goto rfl rfl rfl rfl (fun fd hfd => by cases hfd) (by simp)
  all_goals
    cases h
    exact hi.goto rfl rfl rfl rfl (fun fd hfd => by cases hfd) (by simp)

/-- A step on the connection `i` that opens no descriptor. -/
theorem liveFd_sub {i : Fin n} {c : Connection}
    (hworkers : ∀ v, s'.workers v = s.workers v ∨ live s'.connections (s'.workers v) = none)
    (hconn : s'.connections = Function.update s.connections i c)
    (hlive : (∃ v fd, s'.workers v = .run fd i) → c.holdsClient = true →
      (s.connections i).holdsClient = true) (v : Fin n)
    (fd : Accepted) (hv : s'.liveFd v = some fd) : s.liveFd v = some fd := by
  rcases hworkers v with hw | hw
  · rw [liveFd, hw, hconn] at hv
    rw [liveFd]
    cases hpc : s.workers v with
    | run fd' j =>
        rw [hpc] at hv
        simp only [live, Function.update_apply] at hv ⊢
        by_cases hj : j = i
        · subst hj
          by_cases hc : c.holdsClient = true
          · simpa [hc, hlive ⟨v, fd', hw.trans hpc⟩ hc] using hv
          · simp [hc] at hv
        · simpa [hj] using hv
    | _ =>
        rw [hpc] at hv
        exact hv
  · rw [liveFd, hw] at hv
    cases hv

/-- One worker runs a connection. -/
theorem FreeInv.run_unique (hf : FreeInv s l) {v w : Fin n} {fd fd' : Accepted} {i : Fin n}
    (hv : s.workers v = .run fd' i) (hw : s.workers w = .run fd i) : v = w ∧ fd' = fd := by
  have hvw : v = w := hf.owned.unique v w i (by rw [owner, hv]; rfl) (by rw [owner, hw]; rfl)
  subst hvw
  rw [hv] at hw
  cases hw
  exact ⟨rfl, rfl⟩

theorem IoInv.run (hf : FreeInv s l) (hi : IoInv s) {w : Fin n} {x : Choice}
    (h : s.runStep w x = some s') : IoInv s' := by
  unfold runStep at h
  split at h <;> try contradiction
  next fd i hpc =>
  split at h <;> try contradiction
  obtain ⟨c, hc, h⟩ := Option.map_eq_some_iff.mp h
  have hconn : s'.connections = Function.update s.connections i c := by
    rw [← h]
    rfl
  have htable : s'.table = if closesFd (s.connections i) (.worker x) then
      Function.update s.table (s.client i).number none else s.table := by
    rw [← h]
    rfl
  have hclient : s'.client = if (s.connections i).worker = .idle then
      Function.update s.client i fd else s.client := by rw [← h]
  have hworkers : s'.workers = if (s.connections i).worker = .returned then
      Function.update s.workers w (.pushLock i) else s.workers := by rw [← h]
  -- a worker that runs a connection now ran it before: this step only ends runs
  have hrun : ∀ v fd' j, s'.workers v = .run fd' j → s.workers v = .run fd' j ∧
      (j = i → (s.connections i).worker ≠ .returned) := by
    intro v fd' j hv
    rw [hworkers] at hv
    split at hv
    · rw [Function.update_apply] at hv
      split at hv
      · cases hv
      · next hvw =>
        refine ⟨hv, fun hj => ?_⟩
        subst hj
        exact absurd (hf.run_unique hv hpc).1 hvw
    · next hret => exact ⟨hv, fun _ => hret⟩
  have hold : ∀ j, j ≠ i → s'.connections j = s.connections j := fun j hj => by
    rw [hconn, Function.update_of_ne hj]
  have hnew : s'.connections i = c := by rw [hconn, Function.update_self]
  -- nothing becomes live
  have hsub : ∀ v fd, s'.liveFd v = some fd → s.liveFd v = some fd := by
    refine liveFd_sub (fun v => ?_) hconn fun ⟨v, fd', hv⟩ => ?_
    · by_cases hvw : s'.workers v = s.workers v
      · exact .inl hvw
      · right
        rw [hworkers] at hvw ⊢
        split at hvw
        · next hret =>
          rw [if_pos hret, Function.update_apply]
          rw [Function.update_apply] at hvw
          split
          · rfl
          · next hne => exact absurd (if_neg hne) hvw
        · exact absurd rfl hvw
    · exact (Connection.workerStep_holdsClient (hi.conn i) hc ((hrun v fd' i hv).2 rfl)).1
  refine ⟨?_, ?_, fun v fd' j hv hidle => ?_, ?_, ?_⟩
  · rw [hconn]
    exact (Function.forall_update_iff _ fun _ => Connection.Inv).mpr
      ⟨(hi.conn i).worker hc, fun j _ => hi.conn j⟩
  · rw [hconn]
    exact (Function.forall_update_iff _ fun _ => Connection.Aside).mpr
      ⟨(hi.aside i).worker (hi.conn i) hc, fun j _ => hi.aside j⟩
  · obtain ⟨hv, hret⟩ := hrun v fd' j hv
    by_cases hj : j = i
    · subst hj
      obtain ⟨-, rfl⟩ := hf.run_unique hv hpc
      rw [hclient]
      split
      · exact Function.update_self ..
      · next hne => exact hi.client v fd' j hv hne
    · rw [hold j hj] at hidle
      have hsame : s'.client j = s.client j := by
        rw [hclient]
        split
        · exact Function.update_of_ne hj ..
        · rfl
      rw [hsame]
      exact hi.client v fd' j hv hidle
  -- the number that is closed was live for `w`, and is not any more
  · refine hi.table_of_sub i _ hsub (fun hclose => ⟨w, ?_⟩) htable
    have hpc' : (s.connections i).worker ≠ .idle ∧ (s.connections i).worker ≠ .returned := by
      cases x <;> simp [closesFd] at hclose
      rw [hclose.1]
      simp
    have hholds := (Connection.workerStep_holdsClient (hi.conn i) hc hpc'.2).2 hclose
    rw [hi.client w fd i hpc hpc'.1, liveFd, liveFd, hworkers, if_neg hpc'.2, hpc]
    simp [live, hnew, hholds]
  · exact fun v v' fd fd' hv hv' => hi.distinct v v' fd fd' (hsub v fd hv) (hsub v' fd' hv')

theorem IoInv.guard (hf : FreeInv s l) (hi : IoInv s) (hok : closesAside s .guard)
    (h : s.guardStep timeout = some s') : IoInv s' := by
  unfold guardStep at h
  split at h
  · next hat =>
    obtain ⟨c, hc, h⟩ := Option.map_eq_some_iff.mp h
    have hworkers : s'.workers = s.workers := by rw [← h]; rfl
    have hclient : s'.client = s.client := by rw [← h]; rfl
    have hconn : s'.connections = Function.update s.connections ⟨s.guardAt, hat⟩ c := by
      rw [← h]
      rfl
    have htable : s'.table = if closesFd (s.connections ⟨s.guardAt, hat⟩) .guard then
        Function.update s.table (s.client ⟨s.guardAt, hat⟩).number none else s.table := by
      rw [← h]
      rfl
    have hok := hok rfl ⟨s.guardAt, hat⟩ rfl
    generalize (⟨s.guardAt, hat⟩ : Fin n) = i at hc hconn htable hok
    have hold : ∀ j, j ≠ i → s'.connections j = s.connections j := fun j hj => by
      rw [hconn, Function.update_of_ne hj]
    have hnew : s'.connections i = c := by rw [hconn, Function.update_self]
    have hholds := Connection.guardStep_holdsClient (hi.conn i) hc
    have hsub : ∀ v fd, s'.liveFd v = some fd → s.liveFd v = some fd :=
      liveFd_sub (fun v => .inl (by rw [hworkers])) hconn fun _ => hholds.1
    refine ⟨?_, ?_, fun v fd' j hv hidle => ?_, ?_, ?_⟩
    · rw [hconn]
      exact (Function.forall_update_iff _ fun _ => Connection.Inv).mpr
        ⟨(hi.conn i).guard hc, fun j _ => hi.conn j⟩
    · rw [hconn]
      exact (Function.forall_update_iff _ fun _ => Connection.Aside).mpr
        ⟨(hi.aside i).guard hok hc, fun j _ => hi.aside j⟩
    · rw [hworkers] at hv
      rw [hclient]
      refine hi.client v fd' j hv fun hw => hidle ?_
      by_cases hj : j = i
      · rw [hj, hnew, (Connection.guardStep_frame hc).1, ← hj, hw]
      · rw [hold j hj, hw]
    · refine hi.table_of_sub i _ hsub (fun hclose => ?_) htable
      -- the guard closes only where a worker is exposed to it, and some worker runs that one
      have hexposed : (s.connections i).worker.exposed = true := by
        refine (hi.conn i).seen ?_
        simp only [closesFd, Bool.and_eq_true, decide_eq_true_eq] at hclose
        rw [hclose.1]
        rfl
      have hidle : (s.connections i).worker ≠ .idle := by
        intro hw
        rw [hw] at hexposed
        cases hexposed
      obtain ⟨w, fd, hpc⟩ := hf.busy i hidle
      refine ⟨w, ?_⟩
      rw [hi.client w fd i hpc hidle, liveFd, liveFd, hworkers, hpc]
      simp [live, hnew, hholds.2 hclose]
    · exact fun v v' fd fd' hv hv' => hi.distinct v v' fd fd' (hsub v fd hv) (hsub v' fd' hv')
  · cases h
    exact ⟨hi.conn, hi.aside, hi.client, hi.table, hi.distinct⟩

theorem IoInv.step (hf : FreeInv s l) (hi : IoInv s) {m : Move n} (hok : closesAside s m)
    (h : s.step timeout m = some s') : IoInv s' := by
  cases m with
  | accept w number => exact hi.accept h
  | listen w => exact hi.listen hf h
  | worker w x => exact hi.run hf h
  | guard => exact hi.guard hf hok h
  | tick d =>
      cases h
      exact ⟨fun i => (hi.conn i).tick d, hi.aside, hi.client, hi.table, hi.distinct⟩

/-! ## Every `recv` and `send` -/

/-- The socket `thiz->fd` denotes. -/
def socketOf (s : Server n) (i : Fin n) : Option Nat :=
  if (s.connections i).fd.isSome then s.table (s.client i).number else none

/-- A worker that is at a `recv` or `send` reaches the socket accepted for its
    connection. -/
def OwnSocket (s : Server n) : Prop :=
  ∀ w fd i, s.workers w = .run fd i → (s.connections i).worker.io = true →
    s.socketOf i = some fd.socket

/-- In every run in which the guard closes the descriptor of a connection only while its
    worker is not at a `recv` or `send`, every `recv` and `send` is on the socket that was
    accepted for the connection. -/
theorem ownSocket_of_reaches {clock : Nat}
    (h : Reaches (step timeout) closesAside (create n clock) s) : OwnSocket s := by
  obtain ⟨⟨l, hf⟩, hi⟩ := h.invariant (I := fun s => (∃ l, FreeInv s l) ∧ IoInv s)
    (fun _ _ _ ⟨⟨_, hf⟩, hi⟩ hok hst => ⟨hf.step hst, hi.step hf hok hst⟩)
    ⟨⟨_, freeInv_create n clock⟩, ioInv_create n clock⟩
  intro w fd i hpc hio
  have hrunning := WorkerPc.running_of_io hio
  have hfd := (hi.conn i).runFd (.inl hrunning)
  have hopen : (s.connections i).guard.closedFd = false := by
    rw [← Bool.not_eq_true]
    intro hclosed
    rw [hi.aside i hclosed] at hio
    cases hio
  have hlive : s.liveFd w = some fd := by
    rw [liveFd, hpc]
    simp [live, Connection.holdsClient, hfd, hopen]
  have hclient := hi.client w fd i hpc (by
    intro hw
    rw [hw] at hio
    cases hio)
  rw [socketOf, hfd, hclient]
  exact hi.table w fd hlive

/-- Worker 0 accepts a client and answers it, up to the `send` of the head. -/
def serveMoves : List (Move 2) :=
  [.accept 0 7, .listen 0, .listen 0, .listen 0, .listen 0, .worker 0 .next,
    .worker 0 (.result true), .worker 0 (.result true), .worker 0 .next, .worker 0 .next,
    .worker 0 .next, .worker 0 .next, .worker 0 (.status 200), .worker 0 .next,
    .worker 0 (.status 200), .worker 0 .next]

theorem ownSocket_of_reaches_serve : ∃ s : Server 2, s.workers 0 = .run ⟨7, 0⟩ 0 ∧
    (s.connections 0).worker = .sendHead ∧ OwnSocket s := by
  have hrun : (execOf (step 5) closesAside (create 2 100) (serveMoves ++ [.accept 1 8])).map
      (fun s => (s.workers 0, (s.connections 0).worker)) = some (.run ⟨7, 0⟩ 0, .sendHead) := by
    decide
  obtain ⟨s, hs, hw⟩ := Option.map_eq_some_iff.mp hrun
  simp only [Prod.mk.injEq] at hw
  exact ⟨s, hw.1, hw.2, ownSocket_of_reaches (reaches_of_execOf hs)⟩

/-- The guard closes the descriptor of a client that is being answered, and `accept`
    returns its number for the next client. -/
theorem not_ownSocket_reused : ¬ ∀ (n : Nat) (timeout : Int) (clock : Nat) (s : Server n),
    Reaches (step timeout) anyMove (create n clock) s → OwnSocket s := by
  intro h
  have hrun : (exec (step 5) (create 2 100) (serveMoves ++ .tick 7 ::
      (List.replicate 9 .guard ++ [.accept 1 7]))).map
      (fun s => (s.workers 0, (s.connections 0).worker, s.socketOf 0))
      = some (.run ⟨7, 0⟩ 0, .sendHead, some 1) := by decide
  obtain ⟨s, hs, hw⟩ := Option.map_eq_some_iff.mp hrun
  simp only [Prod.mk.injEq] at hw
  have := h 2 5 100 s (reaches_of_exec hs) 0 _ 0 hw.1 (by rw [hw.2.1]; rfl)
  rw [hw.2.2] at this
  cases this

end Server

end XwpServer
