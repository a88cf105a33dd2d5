/-
  XwpServer.ConfDestroy

  The destruction of a configuration (`conf_destroy` of `conf.c`).

  The loop over the vhosts and the one over the locations of a vhost share their counter.
  Behind a vhost with `k` locations the outer loop so goes on with the vhost `k + 1`: it is
  a walk that may miss vhosts or never end (`confDestroyed_iff`).
-/

import XwpServer.ConfParse
import XwpServer.Lib.Walk

namespace XwpServer

open Walk

variable {μ : Type}

/-! ## `conf_destroy` -/

/-- A `pattern_regex`, by the indices of its vhost and of its location. -/
abbrev RegexAt := Nat × Nat

/-- The loop over the locations of the vhost `n`, with the counter it leaves. -/
def regfreeLocs (n : Nat) : List (VhostLocConf μ) → (i : Nat) → List RegexAt → Nat × List RegexAt
  | [], i, freed => (i, freed)
  | _ :: locs, i, freed => regfreeLocs n locs (i + 1) (freed ++ [(n, i)])

/-- The loop over the vhosts, with the same counter; `none` is a loop that goes on. -/
def confDestroyLoop (vhosts : List (VhostConf μ)) :
    (fuel : Nat) → (i : Nat) → List RegexAt → Option (List RegexAt)
  | 0, _, _ => none
  | fuel + 1, i, freed =>
      match vhosts[i]? with
      | none => some freed
      | some vhost =>
          let (i', freed) := regfreeLocs i vhost.locs 0 freed
          confDestroyLoop vhosts fuel (i' + 1) freed

/-- What `conf_destroy` calls `regfree` on, within `fuel` rounds. -/
def confDestroy (fuel : Nat) (thiz : ParsedConf μ) : Option (List RegexAt) :=
  confDestroyLoop thiz.vhosts fuel 0 []

/-- The location exists. -/
def ParsedConf.HasLoc (thiz : ParsedConf μ) (x : RegexAt) : Prop :=
  ∃ vhost, thiz.vhosts[x.1]? = some vhost ∧ x.2 < vhost.locs.length

/-- It ends, and each pattern has been freed once. -/
def ConfDestroyed (thiz : ParsedConf μ) : Prop :=
  ∃ fuel freed, confDestroy fuel thiz = some freed ∧ ∀ x, thiz.HasLoc x → freed.count x = 1

/-! ## The walk of the shared counter -/

/-- Where the outer loop goes on: behind the locations of the vhost it has been at. -/
def nextVhost (vhosts : List (VhostConf μ)) (i : Nat) : Option Nat :=
  vhosts[i]?.map fun vhost => vhost.locs.length + 1

/-- The patterns of a vhost. -/
def regexesOf (vhosts : List (VhostConf μ)) (i : Nat) : List RegexAt :=
  (List.range ((vhosts[i]?.map fun vhost => vhost.locs.length).getD 0)).map fun k => (i, k)

theorem regfreeLocs_eq (n : Nat) (locs : List (VhostLocConf μ)) (i : Nat) (freed : List RegexAt) :
    regfreeLocs n locs i freed =
      (i + locs.length, freed ++ (List.range' i locs.length).map fun k => (n, k)) := by
  induction locs generalizing i freed with
  | nil =>
      show (i, freed) = _
      rw [List.length_nil, List.range'_zero, List.map_nil, List.append_nil, Nat.add_zero]
  | cons loc locs ih =>
      rw [regfreeLocs, ih, List.length_cons, List.range'_succ, List.map_cons, List.append_assoc]
      congr 1
      omega

theorem confDestroyLoop_eq (vhosts : List (VhostConf μ)) (fuel i : Nat) (freed : List RegexAt) :
    confDestroyLoop vhosts fuel i freed =
      loop (nextVhost vhosts) (regexesOf vhosts) fuel i freed := by
  induction fuel generalizing i freed with
  | zero => rfl
  | succ fuel ih =>
      rw [confDestroyLoop, loop]
      cases hi : vhosts[i]? with
      | none =>
          rw [nextVhost, hi]
          rfl
      | some vhost =>
          -- the inner loop leaves the counter behind the locations
          have hnext : nextVhost vhosts i = some (vhost.locs.length + 1) := by
            rw [nextVhost, hi]
            rfl
          have hvisit : regexesOf vhosts i =
              (List.range vhost.locs.length).map fun k => (i, k) := by
            rw [regexesOf, hi]
            rfl
          rw [hnext, hvisit]
          simp only [regfreeLocs_eq, ih, Nat.zero_add, List.range_eq_range']

theorem mem_regexesOf {vhosts : List (VhostConf μ)} {i : Nat} {x : RegexAt} :
    x ∈ regexesOf vhosts i ↔
      x.1 = i ∧ ∃ vhost, vhosts[i]? = some vhost ∧ x.2 < vhost.locs.length := by
  obtain ⟨n, k⟩ := x
  cases hi : vhosts[i]? with
  | none => simp [regexesOf, hi]
  | some vhost =>
      simp only [regexesOf, hi, Option.map_some, Option.getD_some, List.mem_map, List.mem_range,
        Prod.mk.injEq, Option.some.injEq, exists_eq_left']
      constructor
      · rintro ⟨k', hk', rfl, rfl⟩
        exact ⟨rfl, hk'⟩
      · rintro ⟨rfl, hk⟩
        exact ⟨k, hk, rfl, rfl⟩

/-- The patterns of different vhosts are different. -/
theorem nodup_regexes {vhosts : List (VhostConf μ)} {l : List Nat} (hl : l.Nodup) :
    (l.flatMap (regexesOf vhosts)).Nodup := by
  refine List.nodup_flatMap.mpr ⟨fun i _ => ?_, hl.imp fun hne => ?_⟩
  · exact List.nodup_range.map fun a b hab => (Prod.mk.inj hab).2
  · intro x hx hx'
    exact hne ((mem_regexesOf.mp hx).1.symm.trans (mem_regexesOf.mp hx').1)

theorem mem_regexes_iff {thiz : ParsedConf μ} {l : List Nat} {x : RegexAt} :
    x ∈ l.flatMap (regexesOf thiz.vhosts) ↔ x.1 ∈ l ∧ thiz.HasLoc x := by
  rw [List.mem_flatMap]
  constructor
  · rintro ⟨i, hi, hx⟩
    obtain ⟨rfl, hloc⟩ := mem_regexesOf.mp hx
    exact ⟨hi, hloc⟩
  · rintro ⟨hmem, hloc⟩
    exact ⟨x.1, hmem, mem_regexesOf.mpr ⟨rfl, hloc⟩⟩

/-- The destruction is right exactly if the walk that starts at the first vhost, and goes on
    from a vhost with `k` locations at the vhost `k + 1`, leaves the list and has passed
    every vhost that has a location. -/
theorem confDestroyed_iff (thiz : ParsedConf μ) :
    ConfDestroyed thiz ↔ ∃ l, Ends (nextVhost thiz.vhosts) 0 l ∧
      ∀ n vhost, thiz.vhosts[n]? = some vhost → vhost.locs ≠ [] → n ∈ l := by
  constructor
  · rintro ⟨fuel, freed, hrun, hfreed⟩
    rw [confDestroy, confDestroyLoop_eq] at hrun
    obtain ⟨l, hl, rfl⟩ := loop_eq_some_iff.mp ⟨fuel, hrun⟩
    refine ⟨l, hl, fun n vhost hn hne => ?_⟩
    -- its first location has been freed
    have hloc : thiz.HasLoc (n, 0) := ⟨vhost, hn, List.length_pos_iff.mpr hne⟩
    have hone := hfreed (n, 0) hloc
    rw [List.nil_append] at hone
    have hmem : (n, 0) ∈ l.flatMap (regexesOf thiz.vhosts) := by
      apply List.count_pos_iff.mp
      omega
    exact (mem_regexes_iff.mp hmem).1
  · rintro ⟨l, hl, hall⟩
    obtain ⟨fuel, hrun⟩ := loop_eq_some_iff.mpr ⟨l, hl, rfl⟩
    refine ⟨fuel, [] ++ l.flatMap (regexesOf thiz.vhosts), ?_, fun x hx => ?_⟩
    · rw [confDestroy, confDestroyLoop_eq, hrun]
    · rw [List.nil_append]
      obtain ⟨vhost, hn, hk⟩ := hx
      have hmem : x.1 ∈ l := hall x.1 vhost hn (List.length_pos_iff.mp (by omega))
      apply List.count_eq_one_of_mem (nodup_regexes hl.nodup)
      exact mem_regexes_iff.mpr ⟨hmem, vhost, hn, hk⟩

/-- Of two vhosts with a location each, the second is passed by. -/
theorem not_confDestroyed : ¬ ∀ thiz : ParsedConf Unit, ConfDestroyed thiz := by
  intro h
  let thiz : ParsedConf Unit := {
    workerNum := 1, maxThreads := 1, requestPoolSize := 4096, connectionTimeout := 10
    clientHeaderSize := 1024, largeClientHeaderSize := 4096, contentBodyBufSize := 4096
    maxContentLen := 65536, port := 80, ip := none, root := none, defaultPage := []
    vhosts := [{ locs := [{}] }, { locs := [{}] }] }
  obtain ⟨fuel, freed, hrun, hfreed⟩ := h thiz
  -- the loop goes on from the vhost 0 at the vhost 2
  have hfirst : freed = [(0, 0)] := by
    match fuel, hrun with
    | 0, hrun => cases hrun
    | 1, hrun => cases hrun
    | fuel + 2, hrun => exact (Option.some.inj hrun).symm
  have hloc : thiz.HasLoc (1, 0) := ⟨{ locs := [{}] }, rfl, Nat.zero_lt_one⟩
  have hone := hfreed (1, 0) hloc
  rw [hfirst] at hone
  exact absurd hone (by decide)

/-- One vhost is destroyed, whatever its locations are. -/
theorem confDestroyed_single {thiz : ParsedConf μ} (h : thiz.vhosts.length ≤ 1) :
    ConfDestroyed thiz := by
  rw [confDestroyed_iff]
  cases hv : thiz.vhosts with
  | nil =>
      refine ⟨[], .outside rfl, fun n vhost hn => ?_⟩
      rw [List.getElem?_nil] at hn
      cases hn
  | cons vhost rest =>
      rw [hv, List.length_cons] at h
      have hrest : rest = [] := List.length_eq_zero_iff.mp (by omega)
      subst hrest
      refine ⟨[0], .step (b := vhost.locs.length + 1) rfl (.outside rfl), fun n v hn _ => ?_⟩
      have hn0 : n < 1 := (List.getElem?_eq_some_iff.mp hn).1
      rw [Nat.lt_one_iff.mp hn0]
      exact List.mem_singleton_self 0

end XwpServer
