/-
  XwpServer.Supervision

  The master process and its worker (`main` and `master_main` of `main.c`).

  Children exit, signals are delivered and the master makes its steps in any order.  The
  exit of a worker is never lost: it is pending, or flagged, or still ahead of the scan.
  But the slot of a worker that has been reaped is only filled if the fork succeeds; a
  failed one leaves the old pid behind, for which no signal comes any more.

  The invariant is that of any number of workers, if they start in the order of their slots;
  the one worker of `main` always does.
-/

import XwpServer.Lib.Transition
import Mathlib.Logic.Function.Basic

namespace XwpServer

open Transition

namespace Supervision

/-! ## The processes -/

/-- Where the master is.  The statements that follow a `waitpid` which returns a pid are
    `reaped` (the test of `s_exit_flag`), `forking` and `store`. -/
inductive MasterPc where
  | starting (i : Nat)
  | started (i pid : Nat)
  | head
  | clear
  | scan (i : Nat)
  | reaped (i : Nat)
  | forking (i : Nat)
  | store (i pid : Nat)
  | left
  deriving DecidableEq, Repr

/-- The master with its children: those that run, and those that have exited and have not
    been waited for.  `pending` is a `SIGCHLD` that has not been delivered; more of them
    are one. -/
structure Master where
  /-- `s_conf->worker_num`; `main` sets it to 1. -/
  workerNum : Nat := 1
  pc : MasterPc := .starting 0
  workerProcesses : Nat → Nat := fun _ => 0
  workerCount : Nat := 0
  exitFlag : Bool := false
  childExited : Bool := false
  pending : Bool := false
  running : List Nat := []
  exited : List Nat := []

inductive Move where
  | childExits (pid : Nat)
  | sigchld
  | sigterm
  /-- `fork` with the pid it returns; it may fail. -/
  | fork (pid : Option Nat)
  /-- The statement the master is at, if that is not a `fork`. -/
  | run
  deriving DecidableEq, Repr

/-- A pid that no child has. -/
def Master.fresh (s : Master) (pid : Nat) : Bool :=
  decide (0 < pid) && !s.running.contains pid && !s.exited.contains pid

/-- `s_worker_processes[i] = pid`. -/
def Master.setWorker (s : Master) (i pid : Nat) : Master :=
  { s with workerProcesses := Function.update s.workerProcesses i pid }

/-- A `fork`, of `main` or of `master_main`. -/
def forkStep (s : Master) (pid : Option Nat) : Option Master :=
  match s.pc, pid with
  | .starting i, some pid =>
    if i < s.workerNum ∧ s.fresh pid then
      some { s with pc := .started i pid, running := pid :: s.running }
    else none
  | .starting i, none => if i < s.workerNum then some { s with pc := .starting (i + 1) } else none
  | .forking i, some pid =>
    if s.fresh pid then some { s with pc := .store i pid, running := pid :: s.running } else none
  | .forking i, none => some { s with pc := .scan (i + 1) }
  | _, _ => none

/-- Another statement of `main` or `master_main`. -/
def runStep (s : Master) : Option Master :=
  match s.pc with
  | .starting i => if i < s.workerNum then none else some { s with pc := .head }
  | .started i pid =>
    some { (s.setWorker i pid) with workerCount := s.workerCount + 1, pc := .starting (i + 1) }
  | .head =>
    if s.exitFlag then some { s with pc := .left }
    else if s.childExited then some { s with pc := .clear }
    else some s
  | .clear => some { s with childExited := false, pc := .scan 0 }
  | .scan i =>
    if i < s.workerCount then
      if s.workerProcesses i ∈ s.exited then
        some { s with
          exited := s.exited.filter (· ≠ s.workerProcesses i), pc := .reaped i }
      else some { s with pc := .scan (i + 1) }
    else some { s with pc := .head }
  | .reaped i => some { s with pc := if s.exitFlag then .scan (i + 1) else .forking i }
  | .store i pid => some { (s.setWorker i pid) with pc := .scan (i + 1) }
  | .forking _ => none
  | .left => none

def step (s : Master) : Move → Option Master
  | .childExits pid =>
    if pid ∈ s.running then
      some { s with
        running := s.running.filter (· ≠ pid), exited := pid :: s.exited, pending := true }
    else none
  | .sigchld =>
    if s.pending then some { s with pending := false, childExited := true } else none
  | .sigterm => some { s with exitFlag := true }
  | .fork pid => forkStep s pid
  | .run => runStep s

/-! ## What the supervision is for -/

/-- In `master_main`, and not at the statements that replace a worker. -/
def MasterPc.InMaster : MasterPc → Prop
  | .head | .clear | .scan _ => True
  | _ => False

/-- Nothing is to be done: no exit has been requested, and no child has exited. -/
structure Quiet (s : Master) : Prop where
  inMaster : s.pc.InMaster
  exitFlag : s.exitFlag = false
  exited : s.exited = []
  childExited : s.childExited = false

/-- Every slot holds the pid of a worker that runs. -/
def SlotsFilled (s : Master) : Prop := ∀ i < s.workerCount, s.workerProcesses i ∈ s.running

/-- At the `fork` of `master_main`. -/
def MasterPc.isForking : MasterPc → Bool
  | .forking _ => true
  | _ => false

/-- A `fork` of `master_main` succeeds. -/
def ForkSucceeds (s : Master) (m : Move) : Prop := s.pc.isForking = true → m ≠ .fork none

instance (s : Master) (m : Move) : Decidable (ForkSucceeds s m) :=
  inferInstanceAs (Decidable (_ → _))

/-- A worker is started by `main` only behind a filled slot. -/
def StartsInOrder (s : Master) (m : Move) : Prop :=
  ∀ i pid, s.pc = .starting i → m = .fork (some pid) → s.workerCount = i

/-! ## The invariant -/

/-- The master has heard of the exit of a child, or will. -/
def Told (s : Master) (pid : Nat) : Prop :=
  pid ∈ s.running ∨ pid ∈ s.exited ∧ (s.pending = true ∨ s.childExited = true)

/-- The worker in the slot is being replaced. -/
def MasterPc.Replaces (pc : MasterPc) (i : Nat) : Prop :=
  match pc with
  | .reaped j | .forking j | .store j _ => j = i
  | _ => False

/-- The scan is going to look at the slot. -/
def MasterPc.Ahead (pc : MasterPc) (i : Nat) : Prop :=
  match pc with
  | .clear => True
  | .scan j => j ≤ i
  | .reaped j | .forking j | .store j _ => j < i
  | _ => False

/-- The worker in a slot runs, or its exit is on the way to its replacement. -/
def Watched (s : Master) (i : Nat) : Prop :=
  Told s (s.workerProcesses i) ∨ s.workerProcesses i ∈ s.exited ∧ s.pc.Ahead i ∨ s.pc.Replaces i

/-- No slot but `i` has this pid. -/
def OwnPid (s : Master) (i pid : Nat) : Prop :=
  ∀ j < s.workerCount, j ≠ i → s.workerProcesses j ≠ pid

/-- What is known of the slot the master is at, at `pc`. -/
def SlotAt (s : Master) (pc : MasterPc) : Prop :=
  match pc with
  | .starting i => s.workerCount ≤ i
  | .started i pid => s.workerCount = i ∧ Told s pid ∧ OwnPid s i pid
  | .reaped i | .forking i => i < s.workerCount
  | .store i pid => i < s.workerCount ∧ Told s pid ∧ OwnPid s i pid
  | _ => True

/-- The slots while no exit has been requested. -/
structure Slots (s : Master) : Prop where
  slotAt : SlotAt s s.pc
  watched : ∀ i < s.workerCount, Watched s i
  /-- A pid is in one slot, unless the master is about to take it out. -/
  apart : ∀ i < s.workerCount, ¬ s.pc.Replaces i → OwnPid s i (s.workerProcesses i)

def Inv (s : Master) : Prop := s.exitFlag = false → Slots s

theorem inv_init (n : Nat) : Inv { workerNum := n } := fun _ =>
  ⟨Nat.le_refl 0, fun _ hi => absurd hi (Nat.not_lt_zero _),
    fun _ hi => absurd hi (Nat.not_lt_zero _)⟩

section Preservation

variable {s s' : Master}

theorem Slots.here (hi : Slots s) {pc : MasterPc} (hpc : s.pc = pc) : SlotAt s pc :=
  hpc ▸ hi.slotAt

/-- A child that has been told of stays so when another one, or itself, exits. -/
theorem Told.childExits {pid p : Nat} (h : Told s p) :
    Told { s with running := s.running.filter (· ≠ pid), exited := pid :: s.exited, pending := true }
      p := by
  by_cases hp : p = pid
  · subst hp
    exact .inr ⟨List.mem_cons_self, .inl rfl⟩
  · rcases h with h | ⟨h, -⟩
    · exact .inl (List.mem_filter.mpr ⟨h, by simpa using hp⟩)
    · exact .inr ⟨List.mem_cons_of_mem _ h, .inl rfl⟩

theorem Told.sigchld {p : Nat} (h : Told s p) :
    Told { s with pending := false, childExited := true } p := by
  rcases h with h | ⟨h, -⟩
  · exact .inl h
  · exact .inr ⟨h, .inr rfl⟩

theorem Told.forked {pid p : Nat} (h : Told s p) {pc : MasterPc} :
    Told { s with pc := pc, running := pid :: s.running } p := by
  rcases h with h | h
  · exact .inl (List.mem_cons_of_mem _ h)
  · exact .inr h

/-- Any change that keeps the master's place and what has been told. -/
theorem Slots.same (hi : Slots s) (hpc : s'.pc = s.pc) (hcount : s'.workerCount = s.workerCount)
    (hslots : s'.workerProcesses = s.workerProcesses) (htold : ∀ p, Told s p → Told s' p)
    (hexited : ∀ p ∈ s.exited, p ∈ s'.exited) : Slots s' := by
  obtain ⟨hat, hw, hapart⟩ := hi
  have hown : ∀ i pid, OwnPid s i pid → OwnPid s' i pid := by
    intro i pid h j hj hne
    rw [hslots]
    rw [hcount] at hj
    exact h j hj hne
  refine ⟨?_, fun i hi => ?_, fun i hi hrepl => ?_⟩
  · unfold SlotAt at hat ⊢
    rw [hpc, hcount]
    split at hat
    · exact hat
    · exact ⟨hat.1, htold _ hat.2.1, hown _ _ hat.2.2⟩
    · exact hat
    · exact hat
    · exact ⟨hat.1, htold _ hat.2.1, hown _ _ hat.2.2⟩
    · trivial
  · rw [hcount] at hi
    unfold Watched
    rw [hpc, hslots]
    rcases hw i hi with h | ⟨h, ha⟩ | h
    · exact .inl (htold _ h)
    · exact .inr (.inl ⟨hexited _ h, ha⟩)
    · exact .inr (.inr h)
  · rw [hcount] at hi
    rw [hpc] at hrepl
    rw [hslots]
    exact hown _ _ (hapart i hi hrepl)

theorem Inv.childExits (hi : Inv s) {pid : Nat} :
    Inv { s with
      running := s.running.filter (· ≠ pid), exited := pid :: s.exited, pending := true } :=
  fun hflag => (hi hflag).same rfl rfl rfl (fun _ => Told.childExits)
    fun _ => List.mem_cons_of_mem _

theorem Inv.sigchld (hi : Inv s) : Inv { s with pending := false, childExited := true } :=
  fun hflag => (hi hflag).same rfl rfl rfl (fun _ => Told.sigchld) fun _ => id

theorem Inv.sigterm : Inv { s with exitFlag := true } := by
  intro hflag
  cases hflag

/-- The pid of a new child is in no slot, but for the one that is being replaced. -/
theorem Slots.fresh_own (hi : Slots s) {pid i : Nat} (hfresh : s.fresh pid = true)
    (hrepl : ∀ j, s.pc.Replaces j → j = i) : OwnPid s i pid := by
  simp only [Master.fresh, Bool.and_eq_true, Bool.not_eq_true', List.contains_iff_mem,
    ← Bool.not_eq_true] at hfresh
  obtain ⟨⟨-, hrunning⟩, hexited⟩ := hfresh
  rintro j hj hne rfl
  rcases hi.watched j hj with (h | ⟨h, -⟩) | ⟨h, -⟩ | h
  · exact hrunning h
  · exact hexited h
  · exact hexited h
  · exact hne (hrepl j h)

/-- A new child, whose slot the master is at. -/
theorem Slots.forked (hi : Slots s) {pid : Nat} {pc : MasterPc}
    (hat : SlotAt { s with pc := pc, running := pid :: s.running } pc)
    (hahead : ∀ i, s.pc.Ahead i → pc.Ahead i) (hrepl : ∀ i, s.pc.Replaces i ↔ pc.Replaces i) :
    Slots { s with pc := pc, running := pid :: s.running } := by
  refine ⟨hat, fun i hlt => ?_, fun i hlt hnot => hi.apart i hlt fun h => hnot ((hrepl i).mp h)⟩
  rcases hi.watched i hlt with h | ⟨h, ha⟩ | h
  · exact .inl h.forked
  · exact .inr (.inl ⟨h, hahead i ha⟩)
  · exact .inr (.inr ((hrepl i).mp h))

/-- A step of the master that changes its place only. -/
theorem Slots.moved (hi : Slots s) {pc : MasterPc} (hat : SlotAt s pc)
    (hahead : ∀ i < s.workerCount, s.pc.Ahead i → pc.Ahead i ∨ s.workerProcesses i ∉ s.exited)
    (hrepl : ∀ i, s.pc.Replaces i ↔ pc.Replaces i) : Slots { s with pc := pc } := by
  refine ⟨hat, fun i hlt => ?_, fun i hlt hnot => hi.apart i hlt fun h => hnot ((hrepl i).mp h)⟩
  rcases hi.watched i hlt with h | ⟨h, ha⟩ | h
  · exact .inl h
  · rcases hahead i hlt ha with ha | ha
    · exact .inr (.inl ⟨h, ha⟩)
    · exact absurd h ha
  · exact .inr (.inr ((hrepl i).mp h))

theorem Inv.fork (hi : Inv s) {pid : Option Nat} (hok : ForkSucceeds s (.fork pid))
    (horder : s.exitFlag = false → StartsInOrder s (.fork pid)) (h : forkStep s pid = some s') :
    Inv s' := by
  unfold forkStep at h
  split at h
  case h_1 i pid hpc =>
    -- a worker of `main`
    split at h
    case isFalse => cases h
    next hc =>
    cases h
    intro hflag
    have hs := hi hflag
    have hcount := horder hflag i pid hpc rfl
    have hown := hs.fresh_own (i := i) hc.2 (by rw [hpc]; exact fun _ => False.elim)
    refine hs.forked ⟨hcount, .inl List.mem_cons_self, hown⟩ ?_ ?_ <;> rw [hpc]
    · exact fun _ => False.elim
    · exact fun _ => Iff.rfl
  case h_2 i hpc =>
    split at h
    case isFalse => cases h
    cases h
    intro hflag
    have hs := hi hflag
    refine hs.moved (Nat.le_succ_of_le (hs.here hpc)) ?_ ?_ <;> rw [hpc]
    · exact fun _ _ => False.elim
    · exact fun _ => Iff.rfl
  case h_3 i pid hpc =>
    -- the successor of a worker
    split at h
    case isFalse => cases h
    next hc =>
    cases h
    intro hflag
    have hs := hi hflag
    have hown := hs.fresh_own (i := i) hc (by rw [hpc]; exact fun _ => Eq.symm)
    refine hs.forked ⟨hs.here hpc, .inl List.mem_cons_self, hown⟩ ?_ ?_ <;> rw [hpc]
    · exact fun _ => id
    · exact fun _ => Iff.rfl
  case h_4 i hpc =>
    exact absurd rfl (hok (by rw [hpc]; rfl))
  case h_5 => cases h

/-- A pid is assigned to its slot. -/
theorem Slots.assigned (hi : Slots s) {i pid count : Nat} {pc : MasterPc} (htold : Told s pid)
    (hown : OwnPid s i pid) (hlt : ∀ j, j < count → j < s.workerCount ∨ j = i)
    (hat : SlotAt { (s.setWorker i pid) with workerCount := count, pc := pc } pc)
    (hahead : ∀ j, j ≠ i → s.pc.Ahead j → pc.Ahead j) (hrepl : ∀ j, s.pc.Replaces j → j = i) :
    Slots { (s.setWorker i pid) with workerCount := count, pc := pc } := by
  have hself : Function.update s.workerProcesses i pid i = pid := Function.update_self ..
  have hother : ∀ j, j ≠ i → Function.update s.workerProcesses i pid j = s.workerProcesses j :=
    fun j hj => Function.update_of_ne hj ..
  refine ⟨hat, fun j hj => ?_, fun j hj _ k hk hne => ?_⟩
  · by_cases hji : j = i
    · subst hji
      refine .inl ?_
      show Told s (Function.update s.workerProcesses j pid j)
      rwa [hself]
    have hw := hi.watched j ((hlt j hj).resolve_right hji)
    show Told s (Function.update s.workerProcesses i pid j) ∨
      Function.update s.workerProcesses i pid j ∈ s.exited ∧ pc.Ahead j ∨ pc.Replaces j
    rw [hother j hji]
    rcases hw with h | ⟨h, ha⟩ | h
    · exact .inl h
    · exact .inr (.inl ⟨h, hahead j hji ha⟩)
    · exact absurd (hrepl j h) hji
  · show Function.update s.workerProcesses i pid k ≠ Function.update s.workerProcesses i pid j
    by_cases hji : j = i
    · subst hji
      rw [hself, hother k hne]
      exact hown k ((hlt k hk).resolve_right hne) hne
    have hjlt := (hlt j hj).resolve_right hji
    rw [hother j hji]
    by_cases hki : k = i
    · subst hki
      rw [hself]
      exact (hown j hjlt hji).symm
    rw [hother k hki]
    exact hi.apart j hjlt (fun h => hji (hrepl j h)) k ((hlt k hk).resolve_right hki) hne

/-- `waitpid` returns the pid of the slot, which is taken off the children that have exited. -/
theorem Slots.reaped (hi : Slots s) {i : Nat} (hpc : s.pc = .scan i) (hlt : i < s.workerCount) :
    Slots { s with exited := s.exited.filter (· ≠ s.workerProcesses i), pc := .reaped i } := by
  have hnot : ∀ j, ¬ s.pc.Replaces j := by
    rw [hpc]
    exact fun _ => id
  refine ⟨hlt, fun j hj => ?_, fun j hj _ => hi.apart j hj (hnot j)⟩
  by_cases hji : j = i
  · exact .inr (.inr hji.symm)
  -- the others have other pids
  have hne : s.workerProcesses j ≠ s.workerProcesses i := hi.apart i hlt (hnot i) j hj hji
  have hexited : s.workerProcesses j ∈ s.exited →
      s.workerProcesses j ∈ s.exited.filter (· ≠ s.workerProcesses i) :=
    fun h => List.mem_filter.mpr ⟨h, by simpa using hne⟩
  rcases hi.watched j hj with (h | ⟨h, hsig⟩) | ⟨h, ha⟩ | h
  · exact .inl (.inl h)
  · exact .inl (.inr ⟨hexited h, hsig⟩)
  · rw [hpc] at ha
    have ha : i ≤ j := ha
    have hij : i < j := by omega
    exact .inr (.inl ⟨hexited h, hij⟩)
  · exact absurd h (hnot j)

theorem Inv.run (hi : Inv s) (h : runStep s = some s') : Inv s' := by
  unfold runStep at h
  split at h
  case h_1 i hpc =>
    split at h
    · cases h
    cases h
    intro hflag
    refine (hi hflag).moved trivial ?_ ?_ <;> rw [hpc]
    · exact fun _ _ => False.elim
    · exact fun _ => Iff.rfl
  case h_2 i pid hpc =>
    cases h
    intro hflag
    have hs := hi hflag
    obtain ⟨rfl, htold, hown⟩ := hs.here hpc
    refine hs.assigned htold hown (fun j hj => Nat.lt_succ_iff_lt_or_eq.mp hj) (Nat.le_refl _)
      ?_ ?_ <;> rw [hpc]
    · exact fun _ _ => False.elim
    · exact fun _ => False.elim
  case h_3 hpc =>
    split at h
    · next hexit =>
      cases h
      intro hflag
      cases hexit.symm.trans hflag
    split at h
    · cases h
      intro hflag
      refine (hi hflag).moved trivial ?_ ?_ <;> rw [hpc]
      · exact fun _ _ => False.elim
      · exact fun _ => Iff.rfl
    · cases h
      exact hi
  case h_4 hpc =>
    cases h
    intro hflag
    have hs := hi hflag
    refine ⟨trivial, fun j hj => ?_, fun j hj _ => hs.apart j hj (by rw [hpc]; exact id)⟩
    -- the flag is taken back, and the whole scan is ahead
    rcases hs.watched j hj with (h | ⟨h, -⟩) | ⟨h, -⟩ | h
    · exact .inl (.inl h)
    · exact .inr (.inl ⟨h, Nat.zero_le j⟩)
    · exact .inr (.inl ⟨h, Nat.zero_le j⟩)
    · rw [hpc] at h
      exact h.elim
  case h_5 i hpc =>
    split at h
    case isFalse hcount =>
      -- the scan is over, with nothing ahead of it
      cases h
      intro hflag
      refine (hi hflag).moved trivial (fun j hj ha => ?_) ?_ <;> rw [hpc] at *
      · have ha : i ≤ j := ha
        omega
      · exact fun _ => Iff.rfl
    next hcount =>
    split at h
    · cases h
      exact fun hflag => (hi hflag).reaped hpc hcount
    · next hrun =>
      cases h
      intro hflag
      refine (hi hflag).moved trivial (fun j hj ha => ?_) ?_ <;> rw [hpc] at *
      · have ha : i ≤ j := ha
        rcases Nat.eq_or_lt_of_le ha with rfl | hlt
        · exact .inr hrun
        · exact .inl hlt
      · exact fun _ => Iff.rfl
  case h_6 i hpc =>
    cases h
    intro hflag
    have hs := hi hflag
    have hnot : ¬ s.exitFlag = true := by
      rw [show s.exitFlag = false from hflag]
      exact Bool.false_ne_true
    rw [if_neg hnot]
    have hat : SlotAt s (.reaped i) := hs.here hpc
    refine @Slots.moved s hs (.forking i) hat ?_ ?_ <;> rw [hpc]
    · exact fun _ _ => .inl
    · exact fun _ => Iff.rfl
  case h_7 i pid hpc =>
    cases h
    intro hflag
    have hs := hi hflag
    obtain ⟨-, htold, hown⟩ := hs.here hpc
    refine hs.assigned htold hown (fun j hj => .inl hj) trivial ?_ ?_ <;> rw [hpc]
    · exact fun _ _ => id
    · exact fun _ => Eq.symm
  case h_8 => cases h
  case h_9 => cases h

theorem Inv.step (hi : Inv s) {m : Move} (hok : ForkSucceeds s m)
    (horder : s.exitFlag = false → StartsInOrder s m) (h : step s m = some s') : Inv s' := by
  cases m with
  | childExits pid =>
      obtain ⟨-, h⟩ := Option.ite_none_right_eq_some.mp h
      cases h
      exact hi.childExits
  | sigchld =>
      obtain ⟨-, h⟩ := Option.ite_none_right_eq_some.mp h
      cases h
      exact hi.sigchld
  | sigterm =>
      cases h
      exact Inv.sigterm
  | fork pid => exact hi.fork hok horder h
  | run => exact hi.run h

/-- The first worker starts behind no slot. -/
theorem Inv.startsInOrder (hi : Inv s) (hone : s.workerNum = 1) {m : Move}
    (h : Supervision.step s m = some s') (hflag : s.exitFlag = false) : StartsInOrder s m := by
  rintro i pid hpc rfl
  have hlt : i < s.workerNum := by
    simp only [Supervision.step, forkStep, hpc] at h
    exact (Option.ite_none_right_eq_some.mp h).1.1
  have hcount : s.workerCount ≤ i := (hi hflag).here hpc
  omega

theorem step_workerNum {m : Move} (h : Supervision.step s m = some s') :
    s'.workerNum = s.workerNum := by
  cases m with
  | childExits pid =>
      obtain ⟨-, h⟩ := Option.ite_none_right_eq_some.mp h
      cases h
      rfl
  | sigchld =>
      obtain ⟨-, h⟩ := Option.ite_none_right_eq_some.mp h
      cases h
      rfl
  | sigterm =>
      cases h
      rfl
  | fork pid =>
      simp only [Supervision.step, forkStep] at h
      split at h <;> grind
  | run =>
      simp only [Supervision.step, runStep] at h
      split at h <;> grind [Master.setWorker]

end Preservation

/-- Any number of workers. -/
theorem inv_of_startsInOrder {n : Nat} {s : Master}
    (h : Reaches step (fun s m => ForkSucceeds s m ∧ StartsInOrder s m) { workerNum := n } s) :
    Inv s :=
  h.invariant (fun _ _ _ hi hok hst => hi.step hok.1 (fun _ => hok.2) hst) (inv_init n)

/-- The worker of `main`. -/
theorem inv_of_reaches {s : Master} (h : Reaches step ForkSucceeds {} s) : Inv s := by
  have hinv : Inv s ∧ s.workerNum = 1 :=
    h.invariant (I := fun s => Inv s ∧ s.workerNum = 1) (fun _ _ _ hi hok hst =>
      ⟨hi.1.step hok (hi.1.startsInOrder hi.2 hst) hst, (step_workerNum hst).trans hi.2⟩)
      ⟨inv_init 1, rfl⟩
  exact hinv.1

/-! ## Results -/

/-- No child has exited: every slot holds a live worker, or the master is replacing it. -/
theorem Inv.quiet {s : Master} (hi : Inv s) (hq : Quiet s) : SlotsFilled s := by
  intro i hlt
  rcases (hi hq.exitFlag).watched i hlt with (h | ⟨h, -⟩) | ⟨h, -⟩ | h
  · exact h
  · rw [hq.exited] at h
    cases h
  · rw [hq.exited] at h
    cases h
  · -- the master is not replacing a worker
    have hpc := hq.inMaster
    unfold MasterPc.Replaces at h
    unfold MasterPc.InMaster at hpc
    split at h <;> simp_all

/-- As long as the forks of `master_main` succeed, every slot holds a live worker whenever
    there is nothing to be done. -/
theorem slots_filled {s : Master} (h : Reaches step ForkSucceeds {} s) (hq : Quiet s) :
    SlotsFilled s :=
  (inv_of_reaches h).quiet hq

/-- The worker 100 exits and is replaced by the worker 101. -/
theorem slots_filled_replaced :
    ∃ s, Reaches step ForkSucceeds {} s ∧ Quiet s ∧ s.workerCount = 1 ∧ SlotsFilled s := by
  obtain ⟨s, hrun, hpc, hflags⟩ : ∃ s, execOf step ForkSucceeds {} [.fork (some 100), .run, .run,
      .childExits 100, .sigchld, .run, .run, .run, .run, .fork (some 101), .run, .run] = some s ∧
      s.pc = .head ∧ s.exitFlag = false ∧ s.exited = [] ∧ s.childExited = false ∧
      s.workerCount = 1 := ⟨_, rfl, rfl, rfl, rfl, rfl, rfl⟩
  obtain ⟨hexit, hexited, hchild, hcount⟩ := hflags
  have hreach := reaches_of_execOf hrun
  have hquiet : Quiet s := ⟨by rw [hpc]; trivial, hexit, hexited, hchild⟩
  exact ⟨s, hreach, hquiet, hcount, slots_filled hreach hquiet⟩

/-- The worker 100 exits, and the fork of its successor fails. -/
theorem not_slots_filled :
    ¬ ∀ s, Reaches step anyMove {} s → Quiet s → SlotsFilled s := by
  intro h
  obtain ⟨s, hrun, hpc, hflags⟩ : ∃ s, exec step {} [.fork (some 100), .run, .run,
      .childExits 100, .sigchld, .run, .run, .run, .run, .fork none, .run] = some s ∧
      s.pc = .head ∧ s.exitFlag = false ∧ s.exited = [] ∧ s.childExited = false ∧
      s.workerCount = 1 ∧ s.running = [] := ⟨_, rfl, rfl, rfl, rfl, rfl, rfl, rfl⟩
  obtain ⟨hexit, hexited, hchild, hcount, hrunning⟩ := hflags
  have hquiet : Quiet s := ⟨by rw [hpc]; trivial, hexit, hexited, hchild⟩
  -- no child runs, and no signal will come
  have hlive := h s (reaches_of_exec hrun) hquiet 0 (by rw [hcount]; exact Nat.zero_lt_one)
  rw [hrunning] at hlive
  cases hlive

/-- No exit is lost: at the head of the loop a worker runs, unless there is a signal of its
    exit, or the flag it sets. -/
theorem slots_watched {s : Master} (h : Reaches step ForkSucceeds {} s) (hhead : s.pc = .head)
    (hexit : s.exitFlag = false) (hpending : s.pending = false) (hflag : s.childExited = false) :
    SlotsFilled s := by
  intro i hlt
  rcases (inv_of_reaches h hexit).watched i hlt with (h | ⟨-, h | h⟩) | ⟨-, h⟩ | h
  · exact h
  · rw [hpending] at h
    cases h
  · rw [hflag] at h
    cases h
  · rw [hhead] at h
    exact h.elim
  · rw [hhead] at h
    exact h.elim

/-- The same of any number of workers that start in the order of their slots. -/
theorem slots_filled_of_startsInOrder {n : Nat} {s : Master}
    (h : Reaches step (fun s m => ForkSucceeds s m ∧ StartsInOrder s m) { workerNum := n } s)
    (hq : Quiet s) : SlotsFilled s :=
  (inv_of_startsInOrder h).quiet hq

end Supervision

end XwpServer
