/-
  XwpServer.FreeList

  The list of free connections.

  In every interleaving a connection is on the list or held by one worker.  There
  are as many connections as workers, so a worker that holds none finds one.
-/

import XwpServer.Server
import XwpServer.Lib.Ownership

namespace XwpServer

open Transition LinkedList Ownership

namespace ListenPc

variable {n : Nat}

/-- The connection a worker has taken off the list. -/
def held : ListenPc n → Option (Fin n)
  | .popUnlock _ c | .run _ c | .pushLock c | .pushNext c | .pushHead c => some c
  | _ => none

/-- The worker holds the server's mutex. -/
def locked : ListenPc n → Bool
  | .accept | .popLock _ | .run _ _ | .pushLock _ => false
  | _ => true

end ListenPc

namespace Server

variable {n : Nat} {timeout : Int} {s s' : Server n}

/-! ## The invariant -/

/-- What each worker holds. -/
def owner (s : Server n) (w : Fin n) : Option (Fin n) := (s.workers w).held

/-- `l` is the list of the free connections. -/
structure FreeInv (s : Server n) (l : List (Fin n)) : Prop where
  chain : Chain s.next s.freeConnections l
  owned : Owned s.owner l
  lock : ∀ w, s.mutex = some w ↔ (s.workers w).locked = true
  popNext : ∀ w fd c, s.workers w = .popNext fd c → s.freeConnections = some c
  pushHead : ∀ w c, s.workers w = .pushHead c → s.next c = s.freeConnections
  busy : ∀ c, (s.connections c).worker ≠ .idle → ∃ w fd, s.workers w = .run fd c
  state : ∀ c, (s.connections c).state = (s.connections c).worker.state

/-! ## `server_create` -/

/-- The links behind the first `k` rounds of the loop. -/
theorem foldl_linkPrevious (k : Nat) (hk : k ≤ n) (i : Fin n) :
    ((List.finRange n).take k).foldl linkPrevious (fun _ => none) i
      = if h : i.val + 1 < k then some ⟨i.val + 1, by omega⟩ else none := by
  -- round `k` links the connection before it; the first round links none
  induction k with
  | zero => simp
  | succ k ih =>
      have hlt : k < (List.finRange n).length := by
        rw [List.length_finRange]
        omega
      rw [List.take_succ_eq_append_getElem hlt, List.foldl_append]
      simp only [List.foldl_cons, List.foldl_nil, linkPrevious, List.getElem_finRange]
      have ih := ih (by omega)
      split
      · next hpos =>
        simp only [Fin.val_cast] at hpos
        rw [Function.update_apply]
        split
        · next hi =>
          subst hi
          simp only [Fin.val_cast]
          rw [dif_pos (by omega)]
          simp only [Option.some.injEq, Fin.ext_iff, Fin.val_cast]
          omega
        · next hi =>
          rw [ih]
          simp only [Fin.ext_iff, Fin.val_cast] at hi
          split <;> split <;> first | rfl | omega
      · next hpos =>
        rw [ih]
        simp only [Fin.val_cast] at hpos
        rw [dif_neg (by omega), dif_neg (by omega)]

theorem freeInv_create (n clock : Nat) : FreeInv (create n clock) (List.finRange n) where
  chain := by
    refine chain_of_getElem? fun i hi => ?_
    have hall : (List.finRange n).take n = List.finRange n := List.take_of_length_le (by simp)
    have hlink := foldl_linkPrevious n (Nat.le_refl n) ((List.finRange n)[i])
    rw [hall] at hlink
    refine hlink.trans ?_
    simp only [List.getElem_finRange, Fin.val_cast]
    split
    · next h => simp [h]
    · next h => simpa using h
  owned := {
    nodup := List.nodup_finRange n
    free := by simp [owner, create, ListenPc.held]
    held := by simp
    unique := by simp [owner, create, ListenPc.held] }
  lock := by simp [create, ListenPc.locked]
  popNext := by simp [create]
  pushHead := by simp [create]
  busy := by simp [create, Connection.created]
  state := by simp [create, Connection.created, WorkerPc.state]

/-! ## Steps -/

/-- The step behind `connection_run`. -/
theorem worker_of_returned {c c' : Connection} {x : Choice} (hc : c.worker = .returned)
    (h : workerStep c x = some c') : c'.worker = .idle := by
  unfold workerStep at h
  rw [hc] at h
  cases x <;> cases h
  rfl

theorem owner_of_workers {w : Fin n} {pc : ListenPc n}
    (h : s'.workers = Function.update s.workers w pc) :
    s'.owner = Function.update s.owner w pc.held := by
  funext v
  simp only [owner, h, Function.update_apply]
  split <;> rfl

/-- A step that moves a worker and leaves what it holds. -/
theorem owner_eq_of_workers {w : Fin n} {pc : ListenPc n}
    (h : s'.workers = Function.update s.workers w pc) (hpc : pc.held = (s.workers w).held) :
    s'.owner = s.owner := by
  rw [owner_of_workers h, hpc]
  exact Function.update_eq_self w s.owner

/-- A worker that is not in `connection_run` moves. -/
theorem busy_update {w : Fin n} {c : Fin n} (pc : ListenPc n)
    (hbusy : ∃ v fd, s.workers v = .run fd c) (hw : ∀ fd, s.workers w ≠ .run fd c) :
    ∃ v fd, Function.update s.workers w pc v = .run fd c := by
  obtain ⟨v, fd, hv⟩ := hbusy
  refine ⟨v, fd, ?_⟩
  rwa [Function.update_of_ne]
  rintro rfl
  exact hw fd hv

section Moves

variable {l : List (Fin n)} {w : Fin n} {pc : ListenPc n}

/-- Who has the mutex when a worker neither takes it nor gives it back. -/
theorem FreeInv.lock_same (hi : FreeInv s l) (hpc : pc.locked = (s.workers w).locked) (v : Fin n) :
    s.mutex = some v ↔ (Function.update s.workers w pc v).locked = true := by
  rw [hi.lock, Function.update_apply]
  split
  · next hv => rw [hpc, hv]
  · exact Iff.rfl

theorem FreeInv.lock_taken (hi : FreeInv s l) (hfree : s.mutex = none) (hpc : pc.locked = true)
    (v : Fin n) : some w = some v ↔ (Function.update s.workers w pc v).locked = true := by
  rw [Function.update_apply]
  split
  · next hv => simp [hv, hpc]
  · next hv =>
    rw [← hi.lock, hfree]
    simpa using fun h : w = v => hv h.symm

theorem FreeInv.lock_given (hi : FreeInv s l) (hw : (s.workers w).locked = true)
    (hpc : pc.locked = false) (v : Fin n) :
    none = some v ↔ (Function.update s.workers w pc v).locked = true := by
  rw [Function.update_apply]
  split
  · simp [hpc]
  · next hv =>
    rw [← hi.lock, (hi.lock w).mpr hw]
    simpa using fun h : w = v => hv h.symm

/-- A worker that is not in `connection_run` moves and leaves the list and what it holds. -/
theorem FreeInv.moves (hi : FreeInv s l) (hworkers : s'.workers = Function.update s.workers w pc)
    (hlist : s'.next = s.next ∧ s'.freeConnections = s.freeConnections)
    (hconn : s'.connections = s.connections) (hrun : ∀ fd c, s.workers w ≠ .run fd c)
    (hheld : pc.held = (s.workers w).held)
    (hlock : ∀ v, s'.mutex = some v ↔ (Function.update s.workers w pc v).locked = true)
    (hpop : ∀ fd c, pc = .popNext fd c → s.freeConnections = some c)
    (hpush : ∀ c, pc ≠ .pushHead c) : FreeInv s' l where
  chain := by rw [hlist.1, hlist.2]; exact hi.chain
  owned := by rw [owner_eq_of_workers hworkers hheld]; exact hi.owned
  lock := by rw [hworkers]; exact hlock
  popNext v fd c hv := by
    rw [hworkers, Function.update_apply] at hv
    rw [hlist.2]
    split at hv
    · exact hpop fd c hv
    · exact hi.popNext v fd c hv
  pushHead v c hv := by
    rw [hworkers, Function.update_apply] at hv
    rw [hlist.1, hlist.2]
    split at hv
    · exact absurd hv (hpush c)
    · exact hi.pushHead v c hv
  busy c hc := by
    rw [hconn] at hc
    rw [hworkers]
    exact busy_update _ (hi.busy c hc) fun fd => hrun fd c
  state := by rw [hconn]; exact hi.state

/-- The worker that has the mutex changes the list. -/
theorem FreeInv.relinks (hi : FreeInv s l) {next : Fin n → Option (Fin n)}
    {free : Option (Fin n)} {l' : List (Fin n)} (hw : (s.workers w).locked = true)
    (hpc : pc.locked = true) (hchain : Chain next free l')
    (howned : Owned (Function.update s.owner w pc.held) l') (hpop : ∀ fd c, pc ≠ .popNext fd c)
    (hpush : ∀ c, pc = .pushHead c → next c = free) :
    FreeInv { s with next := next, freeConnections := free, workers := Function.update s.workers w pc }
      l' := by
  -- no other worker is where it relies on the list
  have halone : ∀ v, v ≠ w → (s.workers v).locked = false := fun v hv => by
    rw [Bool.eq_false_iff]
    intro hlocked
    have := ((hi.lock v).mpr hlocked).symm.trans ((hi.lock w).mpr hw)
    exact hv (Option.some.inj this)
  have hrun : ∀ fd c, s.workers w ≠ .run fd c := fun fd c h => by
    rw [h] at hw
    cases hw
  exact {
    chain := hchain
    owned := by rw [owner_of_workers rfl]; exact howned
    lock := hi.lock_same (hpc.trans hw.symm)
    popNext := fun v fd c hv => by
      simp only [Function.update_apply] at hv
      split at hv
      · exact absurd hv (hpop fd c)
      · next hne =>
        have := halone v hne
        rw [hv] at this
        cases this
    pushHead := fun v c hv => by
      simp only [Function.update_apply] at hv
      split at hv
      · exact hpush c hv
      · next hne =>
        have := halone v hne
        rw [hv] at this
        cases this
    busy := fun c hc => busy_update _ (hi.busy c hc) fun fd => hrun fd c
    state := hi.state }

theorem FreeInv.accept (hi : FreeInv s l) {number : Nat}
    (h : s.step timeout (.accept w number) = some s') : FreeInv s' l := by
  simp only [step] at h
  split at h <;> cases h
  next hw =>
  exact hi.moves rfl ⟨rfl, rfl⟩ rfl (by simp [hw.1]) (by rw [hw.1]; rfl)
    (hi.lock_same (by rw [hw.1]; rfl)) (by simp) (by simp)

theorem FreeInv.listen (hi : FreeInv s l) (h : s.listenStep w = some s') : ∃ l, FreeInv s' l := by
  cases hpc : s.workers w with
  | popLock fd =>
      simp only [listenStep, hpc] at h
      split at h <;> cases h
      next hfree =>
      exact ⟨l, hi.moves rfl ⟨rfl, rfl⟩ rfl (by simp [hpc]) (by rw [hpc]; rfl)
        (hi.lock_taken (by simpa using hfree) rfl) (by simp) (by simp)⟩
  | popHead fd =>
      simp only [listenStep, hpc] at h
      obtain ⟨c, hc, rfl⟩ := Option.map_eq_some_iff.mp h
      refine ⟨l, hi.moves rfl ⟨rfl, rfl⟩ rfl (by simp [hpc]) (by rw [hpc]; rfl)
        (hi.lock_same (by rw [hpc]; rfl)) ?_ (by simp)⟩
      rintro fd c' ⟨⟩
      exact hc
  | popNext fd c =>
      simp only [listenStep, hpc, Option.some.injEq] at h
      subst h
      -- the head of the list goes to the worker
      have hchain := hi.chain
      have howned := hi.owned
      rw [hi.popNext w fd c hpc] at hchain
      obtain ⟨t, rfl, ht⟩ := hchain.pop
      exact ⟨t, hi.relinks (by rw [hpc]; rfl) rfl ht (howned.take (by rw [owner, hpc]; rfl))
        (by simp) (by simp)⟩
  | popUnlock fd c =>
      simp only [listenStep, hpc, Option.some.injEq] at h
      subst h
      exact ⟨l, hi.moves rfl ⟨rfl, rfl⟩ rfl (by simp [hpc]) (by rw [hpc]; rfl)
        (hi.lock_given (by rw [hpc]; rfl) rfl) (by simp) (by simp)⟩
  | pushLock c =>
      simp only [listenStep, hpc] at h
      split at h <;> cases h
      next hfree =>
      exact ⟨l, hi.moves rfl ⟨rfl, rfl⟩ rfl (by simp [hpc]) (by rw [hpc]; rfl)
        (hi.lock_taken (by simpa using hfree) rfl) (by simp) (by simp)⟩
  | pushNext c =>
      simp only [listenStep, hpc, Option.some.injEq] at h
      subst h
      -- the link is written while the connection is off the list
      have hc : c ∉ l := fun hc => hi.owned.free c hc w (by rw [owner, hpc]; rfl)
      refine ⟨l, hi.relinks (by rw [hpc]; rfl) rfl (hi.chain.update hc _) ?_ (by simp) ?_⟩
      · rw [← @owner_of_workers _ s { s with workers := Function.update s.workers w (.pushHead c) }
          _ _ rfl, owner_eq_of_workers rfl (by rw [hpc]; rfl)]
        exact hi.owned
      · rintro c' ⟨⟩
        simp
  | pushHead c =>
      simp only [listenStep, hpc, Option.some.injEq] at h
      subst h
      exact ⟨c :: l, hi.relinks (by rw [hpc]; rfl) rfl (hi.chain.push (hi.pushHead w c hpc))
        (hi.owned.give (by rw [owner, hpc]; rfl)) (by simp) (by simp)⟩
  | pushUnlock c =>
      simp only [listenStep, hpc, Option.some.injEq] at h
      subst h
      exact ⟨l, hi.moves rfl ⟨rfl, rfl⟩ rfl (by simp [hpc]) (by rw [hpc]; rfl)
        (hi.lock_given (by rw [hpc]; rfl) rfl) (by simp) (by simp)⟩
  | accept | run fd c =>
      simp only [listenStep, hpc] at h
      cases h

end Moves

theorem FreeInv.run {l : List (Fin n)} (hi : FreeInv s l) {w : Fin n} {x : Choice}
    (h : s.runStep w x = some s') : FreeInv s' l := by
  obtain ⟨hchain, howned, hlock, hpop, hpush, hbusy, hstate⟩ := hi
  unfold runStep at h
  split at h <;> try contradiction
  next fd i hpc =>
  split at h <;> try contradiction
  obtain ⟨c', hc', rfl⟩ := Option.map_eq_some_iff.mp h
  have hstate' : ∀ c, (Function.update s.connections i c' c).state
      = (Function.update s.connections i c' c).worker.state :=
    (Function.forall_update_iff _ fun _ (c : Connection) => c.state = c.worker.state).mpr
      ⟨Connection.workerStep_state hc' (hstate i), fun c _ => hstate c⟩
  -- the step out of `connection_run` leaves the connection to the worker; the others stay in it
  by_cases hret : (s.connections i).worker = .returned
  · have hidle : c'.worker = .idle := worker_of_returned hret hc'
    simp only [hret, if_true, reduceCtorEq, if_false]
    refine ⟨hchain, ?_, ?_, ?_, ?_, ?_, hstate'⟩
    · rwa [owner_eq_of_workers rfl (by rw [hpc]; rfl)]
    · grind -ring -linarith [ListenPc.locked, onConnection]
    · grind -ring -linarith [onConnection]
    · grind -ring -linarith [onConnection]
    · intro c hc
      simp only [onConnection, Function.update_apply] at hc
      split at hc
      · exact absurd hidle hc
      · next hci => exact busy_update _ (hbusy c hc) fun fd' hw => hci (by
          rw [hpc] at hw
          cases hw
          rfl)
  · simp only [hret, if_false]
    refine ⟨hchain, howned, hlock, hpop, hpush, ?_, hstate'⟩
    intro c hc
    simp only [onConnection, Function.update_apply] at hc
    split at hc
    · next hci => exact ⟨w, fd, by rw [hci]; exact hpc⟩
    · exact hbusy c hc

theorem FreeInv.guard {l : List (Fin n)} (hi : FreeInv s l) (h : s.guardStep timeout = some s') :
    FreeInv s' l := by
  obtain ⟨hchain, howned, hlock, hpop, hpush, hbusy, hstate⟩ := hi
  unfold guardStep at h
  split at h
  · next hat =>
    obtain ⟨c', hc', rfl⟩ := Option.map_eq_some_iff.mp h
    obtain ⟨hworker, hst, -⟩ := Connection.guardStep_frame hc'
    refine ⟨hchain, howned, hlock, hpop, hpush, ?_, ?_⟩
    · intro c hc
      refine hbusy c fun hidle => hc ?_
      simp only [onConnection, Function.update_apply]
      split
      · next hci => rw [hworker, ← hci, hidle]
      · exact hidle
    · intro c
      simp only [onConnection, Function.update_apply]
      split
      · rw [hworker, hst, hstate]
      · exact hstate c
  · cases h
    exact ⟨hchain, howned, hlock, hpop, hpush, hbusy, hstate⟩

theorem FreeInv.step {l : List (Fin n)} (hi : FreeInv s l) {m : Move n}
    (h : s.step timeout m = some s') : ∃ l, FreeInv s' l := by
  cases m with
  | accept w number => exact ⟨l, hi.accept h⟩
  | listen w => exact hi.listen h
  | worker w x => exact ⟨l, hi.run h⟩
  | guard => exact ⟨l, hi.guard h⟩
  | tick d =>
      cases h
      exact ⟨l, hi.chain, hi.owned, hi.lock, hi.popNext, hi.pushHead, hi.busy, hi.state⟩

theorem freeInv_of_reaches {clock : Nat} {ok : Server n → Move n → Prop}
    (h : Reaches (step timeout) ok (create n clock) s) : ∃ l, FreeInv s l :=
  h.invariant (I := fun s => ∃ l, FreeInv s l) (fun _ _ _ ⟨_, hi⟩ _ hst => hi.step hst)
    ⟨_, freeInv_create n clock⟩

/-! ## The free list in every state -/

/-- In every state of every interleaving a connection is on the list, and once, or
    held by one worker.  The list is not empty where a worker pops, and a connection
    that is popped, or returned, is reusable. -/
theorem freeList_owned {clock : Nat} (h : Reaches (step timeout) anyMove (create n clock) s) :
    (∃ l, Chain s.next s.freeConnections l ∧
      ∀ c, (l.count c = 1 ∧ ∀ w, (s.workers w).held ≠ some c) ∨
        (c ∉ l ∧ ∃! w, (s.workers w).held = some c)) ∧
    (∀ w fd, s.workers w = .popHead fd → s.freeConnections ≠ none) ∧
    (∀ w fd c, s.workers w = .run fd c →
      (s.connections c).worker = .idle ∨ (s.connections c).worker = .returned →
      (s.connections c).state = .reuseable) := by
  obtain ⟨l, hi⟩ := freeInv_of_reaches h
  refine ⟨⟨l, hi.chain, hi.owned.one⟩, ?_, ?_⟩
  · intro w fd hw
    refine hi.chain.head_ne_none (hi.owned.ne_nil (w := w) (Nat.le_refl _) ?_)
    rw [owner, hw]
    rfl
  · intro w fd c hw hc
    rw [hi.state c]
    rcases hc with hc | hc <;> rw [hc] <;> rfl

/-- Two workers: one runs its connection, and the other is about to pop. -/
theorem freeList_owned_two :
    ∃ s : Server 2, s.workers 0 = .run ⟨7, 0⟩ 0 ∧ s.workers 1 = .popHead ⟨8, 1⟩ ∧
      (∃ l, Chain s.next s.freeConnections l ∧
        ∀ c, (l.count c = 1 ∧ ∀ w, (s.workers w).held ≠ some c) ∨
          (c ∉ l ∧ ∃! w, (s.workers w).held = some c)) ∧
      (∀ w fd, s.workers w = .popHead fd → s.freeConnections ≠ none) ∧
      (∀ w fd c, s.workers w = .run fd c →
        (s.connections c).worker = .idle ∨ (s.connections c).worker = .returned →
        (s.connections c).state = .reuseable) := by
  have hrun : (exec (step 5) (create 2 100)
      [.accept 0 7, .listen 0, .listen 0, .listen 0, .listen 0, .worker 0 .next, .guard,
        .accept 1 8, .listen 1]).map (fun s => (s.workers 0, s.workers 1))
      = some (.run ⟨7, 0⟩ 0, .popHead ⟨8, 1⟩) := by decide
  obtain ⟨s, hs, hw⟩ := Option.map_eq_some_iff.mp hrun
  simp only [Prod.mk.injEq] at hw
  exact ⟨s, hw.1, hw.2, freeList_owned (reaches_of_exec hs)⟩

end Server

end XwpServer
