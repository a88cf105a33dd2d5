/-
  XwpServer.Timeout

  `connection_check_timeout`: when it sets `timedout`, which run its writes belong
  to, and when it waits for a worker that waits for it.
-/

import XwpServer.ConnectionInv

namespace XwpServer

open Transition

/-- The worker has found `timedout` clear, and what it does next is to wait. -/
def WorkerPc.waiting : WorkerPc → Bool
  | .upstreamRun | .upstreamExchange | .finalizeLock => true
  | _ => false

@[simp] theorem WorkerPc.waiting_afterDone (s : Int) : (afterDone s).waiting = false := by
  unfold afterDone
  split <;> rfl

/-- The guard holds the upstream's mutex. -/
def GuardPc.inAbort : GuardPc → Bool
  | .abortTest | .abortWait | .abortUnlock => true
  | _ => false

/-- The time the guard has read, while it may still act on it. -/
def GuardPc.now : GuardPc → Option Nat
  | .lock now | .recheck now | .compare now => some now
  | _ => none

/-- The guard has read its clock and looks whether that is a timeout. -/
def GuardPc.deciding : GuardPc → Bool
  | .readClock | .lock _ | .recheck _ | .compare _ => true
  | _ => false

/-- The worker is connected to a backend. -/
def Move.isConnect : Move → Bool
  | .worker (.connect _) => true
  | _ => false

namespace Connection

variable {timeout : Int} {clock : Nat} {c c' : Connection}

/-! ## Timeouts are neither early nor late -/

/-- What the clock says, and which run the guard is in. -/
structure TimeInv (timeout : Int) (c : Connection) : Prop where
  startTime : c.startTime ≤ c.clock
  now : ∀ now ∈ c.guard.now, now ≤ c.clock
  due : c.guard = .setTimedout → c.startTime + timeout ≤ c.clock
  lockRun : c.lockRun ≤ c.run
  late : ∀ now ∈ c.guard.now, c.guard.locked = true → c.lockRun ≠ c.run →
    c.worker.started = true → now ≤ c.startTime
  sameRun : c.guard.struck = true → c.lockRun = c.run

theorem timeInv_created (timeout : Int) (clock : Nat) : TimeInv timeout (created clock) := by
  constructor <;> simp [created, GuardPc.locked, GuardPc.struck, GuardPc.now]

/-- What a step of the worker does to the times of the connection. -/
inductive WorkerTimes (c c' : Connection) : Prop
  | kept (hstart : c'.startTime = c.startTime) (hrun : c'.run = c.run)
      (hstarted : c'.worker.started = true → c.worker.started = true)
  /-- `connection_run` is entered with a new client. -/
  | accepted (hpc : c.worker = .idle) (hstart : c'.startTime = c.startTime)
      (hrun : c'.run = c.run + 1) (hstarted : c'.worker.started = false)
  /-- A request begins: the first one, or with the lock held the next one. -/
  | begun (hpc : c.worker = .setStartTime ∨ c.worker = .finalizeUpdate)
      (hstart : c'.startTime = c.clock) (hrun : c'.run = c.run)
  | cleared (hpc : c.worker = .reusableClear) (hstart : c'.startTime = 0) (hrun : c'.run = c.run)
      (hstarted : c'.worker.started = false)

theorem workerStep_times {x : Choice} (h : workerStep c x = some c') :
    (c'.guard = c.guard ∧ c'.clock = c.clock ∧ c'.lockRun = c.lockRun) ∧ WorkerTimes c c' := by
  by_cases hb : c.worker.boundary = false
  · obtain ⟨hs, hr⟩ := workerStep_within hb h
    simp only [shared, Prod.mk.injEq] at hs
    simp only [WorkerPc.region, Prod.mk.injEq, List.cons.injEq] at hr
    obtain ⟨-, -, -, hstart, -, -, hclock, hrun, hlock, hguard⟩ := hs
    obtain ⟨-, -, -, -, hstarted, -⟩ := hr
    exact ⟨⟨hguard, hclock, hlock⟩, .kept hstart hrun fun h => hstarted.symm.trans h⟩
  unfold workerStep at h
  split at h <;> rename_i hpc <;> rw [hpc] at hb <;> (try exact absurd rfl hb) <;>
    (split at h <;> try contradiction)
  all_goals (try split at h) <;> try contradiction
  all_goals
    simp only [Option.some.injEq, Option.map_eq_some_iff] at h
    first | subst h | obtain ⟨u, -, rfl⟩ := h
    refine ⟨⟨rfl, rfl, rfl⟩, ?_⟩
    first
    | exact .kept rfl rfl fun hs => by rw [hpc]; first | rfl | cases hs
    | exact .accepted hpc rfl rfl rfl
    | exact .begun (.inl hpc) rfl rfl
    | exact .begun (.inr hpc) rfl rfl
    | exact .cleared hpc rfl rfl rfl

theorem TimeInv.worker {x : Choice} (hi : Inv c) (ht : TimeInv timeout c)
    (h : workerStep c x = some c') : TimeInv timeout c' := by
  obtain ⟨⟨hguard, hclock, hlock⟩, htimes⟩ := workerStep_times h
  have hnow : ∀ now ∈ c'.guard.now, now ≤ c'.clock := by
    rw [hguard, hclock]
    exact ht.now
  -- nobody strikes at a worker that is not exposed, or has the lock
  have hcalm : c.worker.exposed = false ∨ c.worker.locked = true → c.guard.struck = false := by
    rw [← Bool.not_eq_true, ← Bool.not_eq_true]
    rintro (he | hw) hs
    · exact he (hi.seen (GuardPc.seen_of_struck hs))
    · have hg := hi.guardLock.mpr (GuardPc.locked_of_seen (GuardPc.seen_of_struck hs))
      rw [hi.workerLock.mpr hw] at hg
      cases hg
  have hdue : c.guard.struck = false → c'.guard = .setTimedout →
      c'.startTime + timeout ≤ c'.clock := by
    intro hfree hset
    rw [← hguard, hset] at hfree
    cases hfree
  have hsame : c.guard.struck = false → c'.guard.struck = true → c'.lockRun = c'.run := by
    intro hfree hs
    rw [hguard, hfree] at hs
    cases hs
  cases htimes with
  | kept hstart hrun hstarted =>
      refine ⟨?_, hnow, ?_, ?_, ?_, ?_⟩
      · rw [hstart, hclock]; exact ht.startTime
      · rw [hguard, hstart, hclock]; exact ht.due
      · rw [hlock, hrun]; exact ht.lockRun
      · rw [hguard, hlock, hrun, hstart]
        exact fun now hnow hl hne hs => ht.late now hnow hl hne (hstarted hs)
      · rw [hguard, hlock, hrun]; exact ht.sameRun
  | accepted hpc hstart hrun hstarted =>
      have hfree := hcalm (.inl (by rw [hpc]; rfl))
      refine ⟨?_, hnow, hdue hfree, ?_, ?_, hsame hfree⟩
      · rw [hstart, hclock]; exact ht.startTime
      · rw [hlock, hrun]; exact Nat.le_succ_of_le ht.lockRun
      · intro now _ _ _ hs
        rw [hstarted] at hs
        cases hs
  | begun hpc hstart hrun =>
      have hfree : c.guard.struck = false := by
        rcases hpc with hpc | hpc
        · exact hcalm (.inl (by rw [hpc]; rfl))
        · exact hcalm (.inr (by rw [hpc]; rfl))
      refine ⟨?_, hnow, hdue hfree, ?_, ?_, hsame hfree⟩
      · exact Nat.le_of_eq (hstart.trans hclock.symm)
      · rw [hlock, hrun]; exact ht.lockRun
      · -- what the guard has read is not behind the clock
        rw [hguard, hstart]
        exact fun now hnow _ _ _ => ht.now now hnow
  | cleared hpc hstart hrun hstarted =>
      have hfree := hcalm (.inr (by rw [hpc]; rfl))
      refine ⟨?_, hnow, hdue hfree, ?_, ?_, hsame hfree⟩
      · rw [hstart]; exact Nat.zero_le _
      · rw [hlock, hrun]; exact ht.lockRun
      · intro now _ _ _ hs
        rw [hstarted] at hs
        cases hs

/-- What a step of the guard does to the times of the connection. -/
theorem guardStep_times (h : guardStep timeout c = some c') :
    c'.startTime = c.startTime ∧ c'.clock = c.clock ∧ c'.run = c.run ∧
      (c.guard.deciding = false → c'.lockRun = c.lockRun ∧ c'.guard.now = none ∧
        c'.guard ≠ .setTimedout ∧ (c'.guard.struck = true → c.guard.struck = true)) := by
  unfold guardStep at h
  split at h <;> rename_i hpc <;> (try split at h) <;> try contradiction
  all_goals
    simp only [Option.some.injEq] at h
    subst h
    refine ⟨rfl, rfl, rfl, fun hd => ?_⟩
    rw [hpc] at hd ⊢
    first
    | contradiction
    | exact ⟨rfl, rfl, by simp, by simp [GuardPc.struck]⟩

theorem TimeInv.guard (hpos : 0 < timeout) (hi : Inv c) (ht : TimeInv timeout c)
    (h : guardStep timeout c = some c') : TimeInv timeout c' := by
  obtain ⟨hstart, hclock, hrun, hbehind⟩ := guardStep_times h
  have hstart' : c'.startTime ≤ c'.clock := by
    rw [hstart, hclock]
    exact ht.startTime
  by_cases hd : c.guard.deciding = false
  · -- behind the decision nothing is written that belongs to another run
    obtain ⟨hlock, hnow, hset, hstruck⟩ := hbehind hd
    refine ⟨hstart', ?_, fun h => absurd h hset, ?_, ?_, ?_⟩
    · rw [hnow]
      exact fun now h => by cases h
    · rw [hlock, hrun]; exact ht.lockRun
    · rw [hnow]
      exact fun now h => by cases h
    · rw [hlock, hrun]
      exact fun hs => ht.sameRun (hstruck hs)
  cases hpc : c.guard with
  | readClock =>
      simp only [guardStep, hpc, Option.some.injEq] at h
      subst h
      refine ⟨hstart', ?_, by simp, ht.lockRun, by simp [GuardPc.locked], by simp [GuardPc.struck]⟩
      simp [GuardPc.now]
  | lock now =>
      have hread : now ≤ c.clock := ht.now now (by rw [hpc]; rfl)
      simp only [guardStep, hpc] at h
      split at h
      · cases h
      simp only [Option.some.injEq] at h
      subst h
      -- the lock is taken in the run that goes on
      refine ⟨hstart', ?_, by simp, Nat.le_refl _, by simp, by simp⟩
      simpa [GuardPc.now] using hread
  | recheck now =>
      have hread : now ≤ c.clock := ht.now now (by rw [hpc]; rfl)
      have hlate := ht.late now (by rw [hpc]; rfl) (by rw [hpc]; rfl)
      simp only [guardStep, hpc, Option.some.injEq] at h
      subst h
      by_cases hrunning : c.state = .running
      · simp only [if_pos hrunning]
        refine ⟨hstart', ?_, by simp, ht.lockRun, ?_, by simp [GuardPc.struck]⟩
        · simpa [GuardPc.now] using hread
        · simpa [GuardPc.now] using fun _ => hlate
      · simp only [if_neg hrunning]
        exact ⟨hstart', by simp [GuardPc.now], by simp, ht.lockRun, by simp [GuardPc.now],
          by simp [GuardPc.struck]⟩
  | compare now =>
      have hread : now ≤ c.clock := ht.now now (by rw [hpc]; rfl)
      have hlate := ht.late now (by rw [hpc]; rfl) (by rw [hpc]; rfl)
      have hexposed := hi.seen (by rw [hpc]; rfl)
      simp only [guardStep, hpc] at h
      split at h <;> rename_i hcmp
      · simp only [Option.some.injEq] at h
        subst h
        refine ⟨hstart', by simp [GuardPc.now], fun _ => ?_, ht.lockRun, by simp [GuardPc.now],
          fun _ => ?_⟩
        · show (c.startTime : Int) + timeout ≤ c.clock
          omega
        · -- of a run that is not the lock's the start time would be behind what was read
          show c.lockRun = c.run
          by_contra hne
          have := hlate hne (WorkerPc.started_of_exposed hexposed)
          omega
      · simp only [Option.some.injEq] at h
        subst h
        exact ⟨hstart', by simp [GuardPc.now], by simp, ht.lockRun, by simp [GuardPc.now],
          by simp [GuardPc.struck]⟩
  | _ => exact absurd (by rw [hpc]; rfl) hd

theorem TimeInv.step (hpos : 0 < timeout) (hi : Inv c) (ht : TimeInv timeout c) {m : Move}
    (h : c.step timeout m = some c') : TimeInv timeout c' := by
  cases m with
  | worker x => exact ht.worker hi h
  | guard => exact ht.guard hpos hi h
  | tick d =>
      cases h
      exact { ht with
        startTime := Nat.le_trans ht.startTime (Nat.le_add_right ..)
        now := fun now h => Nat.le_trans (ht.now now h) (Nat.le_add_right ..)
        due := fun h => Int.le_trans (ht.due h) (Int.ofNat_le.mpr (Nat.le_add_right ..)) }

theorem timeInv_of_reaches (hpos : 0 < timeout) {ok : Connection → Move → Prop}
    (h : Reaches (step timeout) ok (created clock) c) : TimeInv timeout c :=
  (h.invariant (I := fun c => Inv c ∧ TimeInv timeout c)
    (fun _ _ _ hi _ hst => ⟨hi.1.step hst, hi.2.step hpos hi.1 hst⟩)
    ⟨inv_created clock, timeInv_created timeout clock⟩).2

/-- The guard's writes to `timedout` and `fd`. -/
theorem guardStep_writes (h : guardStep timeout c = some c') :
    (c'.timedout ≠ c.timedout → c.guard = .setTimedout) ∧
      (c'.fd ≠ c.fd → c.guard = .clearFd) := by
  unfold guardStep at h
  split at h <;> (try split at h) <;> try contradiction
  all_goals
    simp only [Option.some.injEq] at h
    subst h
    simp_all [deref, close]

/-- The worker enters `CONNECTION_RUNNING` in one place. -/
theorem workerStep_running {x : Choice} (h : workerStep c x = some c')
    (hs : c.state ≠ .running) (hs' : c'.state = .running) :
    c.worker = .setRunning ∧ c'.timedout = c.timedout := by
  by_cases hb : c.worker.boundary = false
  · obtain ⟨hsh, -⟩ := workerStep_within hb h
    simp only [shared, Prod.mk.injEq] at hsh
    exact absurd (hsh.1.symm.trans hs') hs
  unfold workerStep at h
  split at h <;> rename_i hpc <;> rw [hpc] at hb ⊢ <;> (try exact absurd rfl hb) <;>
    (split at h <;> try contradiction)
  all_goals (try split at h) <;> try contradiction
  all_goals
    simp only [Option.some.injEq, Option.map_eq_some_iff] at h
    first | subst h | obtain ⟨u, -, rfl⟩ := h
    first | exact ⟨rfl, rfl⟩ | exact absurd hs' hs | exact absurd hs' (by simp)

/-- In every interleaving `timedout` is 0 when the state becomes `CONNECTION_RUNNING`;
    the guard sets it only when the request in progress is `connection_timeout` old; and
    what the guard writes belongs to the run in which it has taken the lock. -/
theorem timeout_in_time (hpos : 0 < timeout)
    (hr : Reaches (step timeout) anyMove (created clock) c) {m : Move}
    (hst : c.step timeout m = some c') :
    (c.state ≠ .running → c'.state = .running → c'.timedout = false) ∧
      (m = .guard → (c.guard = .setTimedout ∨ c'.timedout ≠ c.timedout) →
        c.state ≠ .reuseable ∧ c.startTime + timeout ≤ c.clock) ∧
      (m = .guard → (c.guard = .setTimedout ∨ c.guard = .clearFd ∨ c'.timedout ≠ c.timedout ∨
        c'.fd ≠ c.fd) → c.lockRun = c.run) := by
  have hi := inv_of_reaches hr
  have ht := timeInv_of_reaches hpos hr
  -- only the worker starts a run, only the guard strikes
  refine ⟨fun hs hs' => ?_, fun hm hw => ?_, fun hm hw => ?_⟩
  · cases m with
    | worker x =>
        obtain ⟨hpc, hto⟩ := workerStep_running hst hs hs'
        rw [hto, ← Bool.not_eq_true]
        intro htimed
        rcases hi.timedout htimed with h | h | h
        · have := hi.seen (GuardPc.seen_of_struck (GuardPc.struck_of_hasSet h))
          rw [hpc] at this
          cases this
        · rw [hpc] at h
          cases h
        · rw [hpc] at h
          cases h
    | guard =>
        exact absurd ((guardStep_frame hst).2.1.symm.trans hs') hs
    | tick d =>
        cases hst
        exact absurd hs' hs
  · subst hm
    have hpc : c.guard = .setTimedout := hw.elim id (guardStep_writes hst).1
    refine ⟨?_, ht.due hpc⟩
    -- the worker is exposed to a guard that strikes, so it is on its way
    have := hi.seen (by rw [hpc]; rfl)
    rw [hi.state]
    intro hre
    cases hw : c.worker <;> rw [hw] at this hre <;> cases this <;> cases hre
  · subst hm
    have hpc : c.guard = .setTimedout ∨ c.guard = .clearFd := by
      rcases hw with h | h | h | h
      · exact .inl h
      · exact .inr h
      · exact .inl ((guardStep_writes hst).1 h)
      · exact .inr ((guardStep_writes hst).2 h)
    exact ht.sameRun (by rcases hpc with h | h <;> rw [h] <;> rfl)

theorem timeout_in_time_strike : ∃ c c' : Connection,
    c.guard = .setTimedout ∧ c.step 5 .guard = some c' ∧
      c.state ≠ .reuseable ∧ c.startTime + (5 : Int) ≤ c.clock := by
  obtain ⟨c, hc⟩ := Option.isSome_iff_exists.mp
    (show (exec (step 5) (created 100) (acceptMoves ++ .tick 7 :: strikeMoves)).isSome by decide)
  have hpc : (exec (step 5) (created 100) (acceptMoves ++ .tick 7 :: strikeMoves)).map (·.guard)
      = some .setTimedout := by decide
  simp only [hc, Option.map_some, Option.some.injEq] at hpc
  obtain ⟨c', hst⟩ : ∃ c', c.step 5 .guard = some c' := by simp [step, guardStep, hpc]
  exact ⟨c, c', hpc, hst,
    (timeout_in_time (by decide) (reaches_of_exec hc) hst).2.1 rfl (.inl hpc)⟩

/-! ## Waiting for each other -/

/-- The guard is in a loop that waits for `CONNECTION_BEFORE_REUSEABLE`. -/
def GuardWaits (c : Connection) : Prop :=
  (c.guard = .waitClient ∨ c.guard = .waitUpstream) ∧ c.state ≠ .beforeReuseable

/-- The worker is at a call that only a later step of the guard can end: it waits for a
    mutex the guard holds, or for a backend whose connection has not been shut down. -/
def WorkerBlocked (c : Connection) : Prop :=
  ((c.worker = .finalizeLock ∨ c.worker = .reusableLock) ∧ c.mutex = some .guard) ∨
    (c.worker = .upstreamLock ∧ c.upstream.any (·.mutex = some .guard) = true) ∨
    (c.worker = .upstreamExchange ∧ c.upstream.any (·.fd.isSome) = true)

instance (c : Connection) : Decidable (GuardWaits c) := inferInstanceAs (Decidable (_ ∧ _))
instance (c : Connection) : Decidable (WorkerBlocked c) := inferInstanceAs (Decidable (_ ∨ _))

/-- A wait of the guard for the worker and of the worker for the guard. -/
def WaitCycle (c : Connection) : Prop := GuardWaits c ∧ WorkerBlocked c

instance (c : Connection) : Decidable (WaitCycle c) := inferInstanceAs (Decidable (_ ∧ _))

/-- The guard sets `timedout` while the worker is not past its last look at the flag and
    on the way to a wait, and the worker does not go there with the flag set. -/
def strikesAside (c : Connection) (m : Move) : Prop :=
  (m = .guard → c.guard = .setTimedout → c.worker.waiting = false) ∧
    (m.isConnect = true → c.timedout = false)

instance (c : Connection) (m : Move) : Decidable (strikesAside c m) :=
  inferInstanceAs (Decidable (_ ∧ _))

/-- What keeps the guard's wait from being one for itself. -/
structure NoCycle (c : Connection) : Prop where
  aside : c.guard.hasSet = true → c.worker.waiting = false
  upstreamMutex : c.upstream.any (·.mutex = some .guard) = true → c.guard.inAbort = true

/-- On the way to a wait the worker looks at `timedout`, or connects; it gives the guard no
    mutex. -/
theorem workerStep_waits {x : Choice} (h : workerStep c x = some c') :
    c'.guard = c.guard ∧
      (c'.worker.waiting = true →
        c.worker.waiting = true ∨ c.timedout = false ∨ (Move.worker x).isConnect = true) ∧
      (c'.upstream.any (·.mutex = some .guard) = true →
        c.upstream.any (·.mutex = some .guard) = true) := by
  unfold workerStep at h
  split at h <;> rename_i hpc <;> (split at h <;> try contradiction)
  all_goals (try split at h) <;> try contradiction
  all_goals
    simp only [Option.some.injEq, Option.map_eq_some_iff] at h
    first | subst h | obtain ⟨u, hu, rfl⟩ := h
    refine ⟨rfl, fun hw => ?_, fun hm => ?_⟩
    · rw [hpc]
      first
      | exact .inl rfl
      | exact .inr (.inr rfl)
      | exact absurd hw (Bool.eq_false_iff.mp (WorkerPc.waiting_afterDone _))
      | grind [WorkerPc.waiting, deref]
    · first
      | exact hm
      | grind [close]
      | cases hu : c.upstream <;> simp [hu] at hm

theorem NoCycle.worker {x : Choice} (hi : Inv c) (hn : NoCycle c)
    (hok : strikesAside c (.worker x)) (h : workerStep c x = some c') : NoCycle c' := by
  obtain ⟨hguard, hwait, hmutex⟩ := workerStep_waits h
  refine ⟨fun hset => ?_, fun hm => ?_⟩
  · rw [hguard] at hset
    have htimed := hi.set hset
    by_contra hwaits
    rcases hwait (by simpa using hwaits) with hold | hclear | hconnect
    · rw [hn.aside hset] at hold
      cases hold
    · rw [htimed] at hclear
      cases hclear
    · have := hok.2 hconnect
      rw [htimed] at this
      cases this
  · rw [hguard]
    exact hn.upstreamMutex (hmutex hm)

/-- Only the write to `timedout` makes the guard one that has set it, and only
    `upstream_uwsgi_abort` has the upstream's mutex. -/
theorem guardStep_waits (h : guardStep timeout c = some c') :
    (c'.guard.hasSet = true → c.guard.hasSet = true ∨ c.guard = .setTimedout) ∧
      (c'.upstream.any (·.mutex = some .guard) = true → c'.guard.inAbort = true ∨
        c.upstream.any (·.mutex = some .guard) = true ∧ c.guard.inAbort = false) := by
  unfold guardStep at h
  split at h <;> rename_i hpc <;> (try split at h) <;> try contradiction
  all_goals
    simp only [Option.some.injEq] at h
    subst h
    rw [hpc]
    refine ⟨fun hs => ?_, fun hm => ?_⟩
    · first
      | exact .inl rfl
      | exact .inr rfl
      | exact absurd hs (by simp [GuardPc.hasSet, GuardPc.struck])
    · first
      | exact .inl rfl
      | exact .inr ⟨hm, rfl⟩
      | cases hu : c.upstream <;> simp [hu] at hm

theorem NoCycle.guard (hn : NoCycle c) (hok : strikesAside c .guard)
    (h : guardStep timeout c = some c') : NoCycle c' := by
  obtain ⟨hset, hmutex⟩ := guardStep_waits h
  refine ⟨fun hs => ?_, fun hm => ?_⟩
  · rw [(guardStep_frame h).1]
    rcases hset hs with hold | hstrike
    · exact hn.aside hold
    · exact hok.1 rfl hstrike
  · rcases hmutex hm with habort | ⟨hold, hout⟩
    · exact habort
    · rw [hn.upstreamMutex hold] at hout
      cases hout

theorem NoCycle.step (hi : Inv c) (hn : NoCycle c) {m : Move}
    (hok : strikesAside c m) (h : c.step timeout m = some c') : NoCycle c' := by
  cases m with
  | worker x => exact hn.worker hi hok h
  | guard => exact hn.guard hok h
  | tick d =>
      cases h
      exact ⟨hn.aside, hn.upstreamMutex⟩

/-- In every run in which the guard sets `timedout` only while the worker is not on the
    way to a wait, the two never wait for each other. -/
theorem no_waitCycle (hr : Reaches (step timeout) strikesAside (created clock) c) : ¬ WaitCycle c := by
  have hi := inv_of_reaches hr
  have hn : NoCycle c := (hr.invariant (I := fun c => Inv c ∧ NoCycle c)
    (fun _ _ _ h hok hst => ⟨h.1.step hst, h.2.step h.1 hok hst⟩)
    ⟨inv_created clock, ⟨by simp [created, GuardPc.hasSet, GuardPc.struck],
      by simp [created]⟩⟩).2
  rintro ⟨⟨hw, hstate⟩, hblocked⟩
  have hclient : c.guard = .waitClient := by
    rcases hw with hw | hw
    · exact hw
    · have := hi.waited (by rw [hw]; rfl)
      rw [hi.state, (WorkerPc.state_of_closing this).1] at hstate
      exact absurd rfl hstate
  have haside := hn.aside (by rw [hclient]; rfl)
  rcases hblocked with ⟨hpc | hpc, -⟩ | ⟨-, hu⟩ | ⟨hpc, -⟩
  · rw [hpc] at haside
    cases haside
  · rw [hi.state, hpc] at hstate
    exact hstate rfl
  · have := hn.upstreamMutex hu
    rw [hclient] at this
    cases this
  · rw [hpc] at haside
    cases haside

theorem no_waitCycle_strike : ∃ c : Connection, c.guard = .waitClient ∧ ¬ WaitCycle c := by
  have hrun : ((execOf (step 5) strikesAside (created 100) (acceptMoves ++ .tick 7 ::
    (strikeMoves ++ [.guard, .guard, .guard, .guard]))).map (·.guard)) = some .waitClient := by
    decide
  obtain ⟨c, hc, hpc⟩ := Option.map_eq_some_iff.mp hrun
  exact ⟨c, hpc, no_waitCycle (reaches_of_execOf hc)⟩

/-- The timeout strikes between the test of `timedout` behind an answer and the lock of
    `connection_finalize_request`. -/
theorem waitCycle_finalize : ¬ ∀ (timeout : Int) (clock : Nat) (c : Connection),
    Reaches (step timeout) anyMove (created clock) c → ¬ WaitCycle c := by
  intro h
  have hrun : ((exec (step 5) (created 100) (acceptMoves ++ answerMoves ++ .tick 7 ::
    (strikeMoves ++ [.guard, .guard, .guard, .guard]))).map fun c => decide (WaitCycle c))
      = some true := by decide
  obtain ⟨c, hc, hcycle⟩ := Option.map_eq_some_iff.mp hrun
  exact h 5 100 c (reaches_of_exec hc) (of_decide_eq_true hcycle)

end Connection

end XwpServer
