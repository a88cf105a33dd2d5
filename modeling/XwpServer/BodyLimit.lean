/-
  XwpServer.BodyLimit

  The limit on the size of a body.

  A declared length is compared with `max_content_len` before anything is received.
  Without one the limit is looked at only when the buffer is full, so it is the first
  capacity above the limit that ends the loop: a peer that closes before has sent a body
  above the limit that is accepted.
-/

import Mathlib.Logic.Relation
import XwpServer.BodyBytes

namespace XwpServer

open CString Relation

/-! ## The capacities a buffer goes through -/

/-- The capacities of the buffer for a body without a declared length, from the first one
    on.  A buffer above the limit does not grow, and there is none of a size that `buf_create`
    asserts against or refuses. -/
def Capacity (conf : Conf) : Int → Int → Prop :=
  ReflTransGen fun c d => c ≤ conf.maxContentLen ∧ d = allocBufLen conf c ∧ 0 ≤ d ∧ ¬ BufRefused d

/-- The buffer at `d` is the current one or a later one. -/
theorem Capacity.step {conf : Conf} {c d : Int} (h : Capacity conf c d) :
    d = c ∨ (c ≤ conf.maxContentLen ∧ ¬ BufRefused (allocBufLen conf c) ∧
      0 ≤ allocBufLen conf c ∧ Capacity conf (allocBufLen conf c) d) := by
  rcases h.cases_head with rfl | ⟨e, ⟨hc, rfl, h0, hgrant⟩, h⟩
  · exact .inl rfl
  · exact .inr ⟨hc, hgrant, h0, h⟩

/-- A size that is not negative is at least that of the buffer it replaces. -/
theorem le_allocBufLen {conf : Conf} {c : Int} (h0 : 0 ≤ c) (hc : c < 2 ^ 31)
    (halloc : 0 ≤ allocBufLen conf c) : c ≤ allocBufLen conf c := by
  unfold allocBufLen at halloc ⊢
  split
  · omega
  next hsize =>
  rw [if_neg hsize] at halloc
  -- the sum is at most three quarters of 2³², so it is negative where it wraps
  by_cases hwrap : c + c / 2 < 2 ^ 31
  · rw [toInt32_of_lt (by omega) hwrap]
    omega
  · have hcut : toInt32 (c + c / 2) = c + c / 2 - 2 ^ 32 := by
      unfold toInt32
      rw [← Int.sub_bmod_right]
      exact Int.bmod_eq_of_le (by omega) (by omega)
    omega

theorem Capacity.le {conf : Conf} {c d : Int} (h : Capacity conf c d) (h0 : 0 ≤ c)
    (hc : c < 2 ^ 31) : c ≤ d := by
  induction h using ReflTransGen.head_induction_on with
  | refl => exact le_refl _
  | head hstep _ ih =>
      obtain ⟨-, rfl, halloc, hgrant⟩ := hstep
      have hle := le_allocBufLen h0 hc halloc
      unfold BufRefused at hgrant
      have hd := ih halloc (by omega)
      omega

/-- A loop that has received `bs`, and started with a buffer of capacity `c`. -/
structure Growing (conf : Conf) (c : Int) (bs : List Byte) (w : Receiving) : Prop
    extends Holds bs w where
  reach : Capacity conf c w.cur.capacity
  /-- Capacities that have been passed could be. -/
  later : ∀ d, Capacity conf c d → (d ≤ conf.maxContentLen ∧ ¬ BufRefused (allocBufLen conf d)) ∨
    Capacity conf w.cur.capacity d

section Growing

variable {conf : Conf} {c : Int} {bs : List Byte} {w : Receiving}

theorem Growing.of_capacity {w' : Receiving} {bs' : List Byte} (hw : Growing conf c bs w)
    (hw' : Holds bs' w') (hcap : w'.cur.capacity = w.cur.capacity) : Growing conf c bs' w' where
  toHolds := hw'
  reach := hcap ▸ hw.reach
  later := hcap ▸ hw.later

/-- A loop whose bytes are above the limit, or could not get a larger buffer, has space. -/
def Spacious (conf : Conf) (bs : List Byte) (w : Receiving) : Prop :=
  ((bs.length : Int) ≤ conf.maxContentLen ∧ ¬ BufRefused (allocBufLen conf bs.length)) ∨
    bs.length < w.cur.capacity

/-- How a loop ends that has received `bs`. -/
def BodyEnd.Limited (conf : Conf) (c : Int) (bs : List Byte) : BodyEnd → Prop
  | .stop _ => True
  | .exit e w => Growing conf c bs w ∧
    match e with
    | .done => Spacious conf bs w
    | .closed => Spacious conf bs w
    | .badRequest => bs.length = w.cur.capacity ∧ conf.maxContentLen < w.cur.capacity
    | .noMemory => bs.length = w.cur.capacity ∧ w.cur.capacity ≤ conf.maxContentLen ∧
        BufRefused (allocBufLen conf w.cur.capacity)

/-- The loop goes on with space, or is left for the limit or for memory. -/
theorem growBody_limited (hw : Growing conf c bs w) :
    Sum.elim (fun w' => (Growing conf c bs w' ∧ Spacious conf bs w') ∧ w'.errno = w.errno)
      (fun t => t.Limited conf c bs ∧ ∀ e w', t = .exit e w' → e = .badRequest ∨ e = .noMemory)
      (growBody conf w) := by
  have hlen := hw.length
  have hpos := hw.pos_le
  obtain ⟨hroom, h⟩ | ⟨hfull, hmax, h⟩ | ⟨-, -, -, s, h⟩ | ⟨hfull, hmax, hrefused, h⟩ |
    ⟨hfull, hmax, hgrant, w', h, hw', he, hcap⟩ := growBody_cases conf hw.toHolds
  · rw [h]
    refine ⟨⟨hw, .inr ?_⟩, rfl⟩
    unfold BodyBuf.capacity
    omega
  · rw [h]
    refine ⟨⟨hw, ?_, hmax⟩, fun e w' h => ?_⟩
    · unfold BodyBuf.capacity
      omega
    · cases h
      exact .inl rfl
  · rw [h]
    exact ⟨trivial, fun _ _ h => by cases h⟩
  · rw [h]
    refine ⟨⟨hw, ?_, hmax, hrefused⟩, fun e w' h => ?_⟩
    · unfold BodyBuf.capacity
      omega
    · cases h
      exact .inr rfl
  · rw [h]
    have hbs : bs.length = w.cur.capacity := by
      unfold BodyBuf.capacity
      omega
    refine ⟨⟨⟨hw', ?_, fun d hd => ?_⟩, .inl ?_⟩, he⟩
    · exact hw.reach.tail ⟨hmax, hcap, by omega, hcap ▸ hgrant⟩
    · rcases hw.later d hd with hd | hd
      · exact .inl hd
      rcases hd.step with rfl | ⟨-, -, -, hd⟩
      · exact .inl ⟨hmax, hgrant⟩
      · exact .inr (hcap ▸ hd)
    · rw [hbs]
      exact ⟨hmax, hgrant⟩

/-! ## The peer's close -/

/-- How many bytes come before the peer's close is noticed.  A close right behind an
    interrupted `recv` is not: `errno` is still `EINTR`. -/
def bytesToClose : Errno → List RecvEvent → Option Nat
  | _, [] => none
  | _, .error e :: es => if e = .eintr then bytesToClose e es else none
  | errno, .data bs :: es =>
    if bs = [] then if errno = .eintr then bytesToClose errno es else some 0
    else (bytesToClose errno es).map (bs.length + ·)

/-- How many bytes come before the peer's close is noticed, or the connection lost. -/
def bytesToEnd : Errno → List RecvEvent → Nat
  | _, [] => 0
  | _, .error e :: es => if e = .eintr then bytesToEnd e es else 0
  | errno, .data bs :: es =>
    if bs = [] then if errno = .eintr then bytesToEnd errno es else 0
    else bs.length + bytesToEnd errno es

theorem bytesToEnd_of_close {errno : Errno} {es : List RecvEvent} {n : Nat}
    (h : bytesToClose errno es = some n) : bytesToEnd errno es = n := by
  induction es generalizing errno n with
  | nil => cases h
  | cons e es ih =>
      cases e with
      | error e =>
          rw [bytesToClose] at h
          rw [bytesToEnd]
          split at h
          · rw [if_pos ‹_›]
            exact ih h
          · cases h
      | data bs =>
          rw [bytesToClose] at h
          rw [bytesToEnd]
          by_cases hbs : bs = []
          · rw [if_pos hbs] at h ⊢
            split at h
            · rw [if_pos ‹_›]
              exact ih h
            · rw [if_neg ‹_›]
              exact Option.some.inj h
          · rw [if_neg hbs] at h ⊢
            obtain ⟨m, hm, rfl⟩ := Option.map_eq_some_iff.mp h
            rw [ih hm]

/-- The loop without a declared length, that has received `bs`, on the outcomes `es`. -/
structure RunsToEnd (conf : Conf) (c : Int) (bs : List Byte) (errno : Errno) (es : List RecvEvent)
    (t : BodyEnd) : Prop where
  limited : ∃ bs', t.Limited conf c bs' ∧ bs'.length ≤ bs.length + bytesToEnd errno es ∧
    ∀ e w, t = .exit e w → e = .done ∨ e = .closed → bs'.length = bs.length + bytesToEnd errno es
  done : ∀ w, t = .exit .done w → bytesToClose errno es = some (bytesToEnd errno es)
  closed : ∀ w, t = .exit .closed w → bytesToClose errno es = none

/-- What holds of the rest of a run holds of the run. -/
theorem RunsToEnd.step {bs' : List Byte} {errno errno' : Errno} {e : RecvEvent}
    {es : List RecvEvent} {t : BodyEnd} {k : Nat} (h : RunsToEnd conf c bs' errno' es t)
    (hlen : bs'.length = bs.length + k)
    (hclose : bytesToClose errno (e :: es) = (bytesToClose errno' es).map (k + ·))
    (hend : bytesToEnd errno (e :: es) = k + bytesToEnd errno' es) :
    RunsToEnd conf c bs errno (e :: es) t where
  limited := by
    obtain ⟨bs'', hlim, hle, hall⟩ := h.limited
    refine ⟨bs'', hlim, by omega, fun x w ht hx => ?_⟩
    have := hall x w ht hx
    omega
  done := by
    intro w ht
    rw [hclose, h.done w ht, hend]
    rfl
  closed := by
    intro w ht
    rw [hclose, h.closed w ht]
    rfl

/-- A loop that `growBody` leaves. -/
theorem runsToEnd_growBody {errno : Errno} {es : List RecvEvent} {t : BodyEnd} {k : Nat}
    {bs' : List Byte} (hlen : bs'.length = bs.length + k) (hle : k ≤ bytesToEnd errno es)
    (ht : t.Limited conf c bs' ∧ ∀ e w', t = .exit e w' → e = .badRequest ∨ e = .noMemory) :
    RunsToEnd conf c bs errno es t := by
  refine ⟨⟨bs', ht.1, by omega, fun e w h he => ?_⟩, fun w h => ?_, fun w h => ?_⟩
  · rcases ht.2 e w h with rfl | rfl
    · rcases he with he | he <;> cases he
    · rcases he with he | he <;> cases he
  · rcases ht.2 _ w h with he | he <;> cases he
  · rcases ht.2 _ w h with he | he <;> cases he

/-- A round that takes some bytes in, with what holds of the rounds behind it. -/
theorem runsToEnd_data {t : BodyEnd} {es rest : List RecvEvent} {ds : List Byte}
    (hw : Growing conf c bs w) (hds : ds ≠ [])
    (h : Feed.feed (onBodyUntilClose conf) (onBodyUntilClose conf w (.data ds)) es
      = (.inr t, rest))
    (ih : ∀ {bs' w'}, Growing conf c bs' w' → Spacious conf bs' w' →
      Feed.feed (onBodyUntilClose conf) (.inl w') es = (.inr t, rest) →
      RunsToEnd conf c bs' w'.errno es t) :
    RunsToEnd conf c bs w.errno (.data ds :: es) t := by
  have hclose : bytesToClose w.errno (.data ds :: es)
      = (bytesToClose w.errno es).map (ds.length + ·) := by
    rw [bytesToClose, if_neg hds]
  have hbytes : bytesToEnd w.errno (.data ds :: es) = ds.length + bytesToEnd w.errno es := by
    rw [bytesToEnd, if_neg hds]
  simp only [onBodyUntilClose] at h
  rw [if_neg hds] at h
  obtain hrecv | ⟨cur, h', hrecv, hpos, hend, hw'⟩ := hw.toHolds.recv ds
  · -- the bytes do not fit, which stops the program
    rw [hrecv, Feed.feed_inr] at h
    cases h
    exact ⟨⟨bs, trivial, by omega, fun _ _ h => by cases h⟩, fun _ h => (by cases h),
      fun _ h => (by cases h)⟩
  · simp only [hrecv] at h
    have hcap : cur.capacity = w.cur.capacity := by
      rw [BodyBuf.capacity, BodyBuf.capacity, hpos, hend]
    have hgrow := growBody_limited (hw.of_capacity hw' hcap)
    generalize growBody conf _ = g at h hgrow
    rcases g with w' | t'
    · obtain ⟨⟨hw'', hroom'⟩, he⟩ := hgrow
      refine (ih hw'' hroom' h).step (k := ds.length) List.length_append ?_ ?_
      · rw [hclose, he]
      · rw [hbytes, he]
    · rw [Feed.feed_inr] at h
      cases h
      exact runsToEnd_growBody (k := ds.length) List.length_append (by omega) hgrow

theorem untilClose_runsToEnd {t : BodyEnd} {es rest : List RecvEvent} (hw : Growing conf c bs w)
    (hroom : Spacious conf bs w)
    (h : Feed.feed (onBodyUntilClose conf) (.inl w) es = (.inr t, rest)) :
    RunsToEnd conf c bs w.errno es t := by
  induction es generalizing w bs with
  | nil => simp at h
  | cons e es ih =>
      rw [Feed.feed_cons] at h
      cases e with
      | error e =>
          simp only [onBodyUntilClose] at h
          split at h
          case isTrue he =>
              have hw' : Growing conf c bs { w with errno := e } :=
                hw.of_capacity (hw.setErrno e) rfl
              refine (ih hw' hroom h).step (k := 0) rfl ?_ ?_
              · simp [bytesToClose, he]
              · simp [bytesToEnd, he]
          case isFalse he =>
              -- the connection is lost, and the peer's close not seen
              have hnone : bytesToClose w.errno (.error e :: es) = none := if_neg he
              have hzero : bytesToEnd w.errno (.error e :: es) = 0 := if_neg he
              rw [Feed.feed_inr] at h
              cases h
              refine ⟨⟨bs, ⟨hw.of_capacity (hw.setErrno e) rfl, hroom⟩, by omega,
                fun _ _ _ _ => by omega⟩, fun _ h => (by cases h), fun _ _ => hnone⟩
      | data ds =>
          by_cases hds : ds = []
          case neg => exact runsToEnd_data hw hds h fun hw' hroom' h' => ih hw' hroom' h'
          simp only [onBodyUntilClose] at h
          rw [if_pos hds] at h
          split at h
          case isTrue he =>
              refine (ih hw hroom h).step (k := 0) rfl ?_ ?_
              · simp [bytesToClose, he, hds]
              · simp [bytesToEnd, he, hds]
          case isFalse he =>
              have hzero : bytesToEnd w.errno (.data ds :: es) = 0 := by
                simp [bytesToEnd, he, hds]
              have hclose : bytesToClose w.errno (.data ds :: es) = some 0 := by
                simp [bytesToClose, he, hds]
              rw [Feed.feed_inr] at h
              cases h
              exact ⟨⟨bs, ⟨hw, hroom⟩, by omega, fun _ _ _ _ => by omega⟩,
                fun _ _ => by rw [hclose, hzero], fun _ h => (by cases h)⟩

/-- The loop from its start on. -/
theorem growBody_runsToEnd (hw : Holds bs w) {t : BodyEnd} {es rest : List RecvEvent}
    (h : Feed.feed (onBodyUntilClose conf) (growBody conf w) es = (.inr t, rest)) :
    RunsToEnd conf w.cur.capacity bs w.errno es t := by
  have hstart : Growing conf w.cur.capacity bs w := ⟨hw, .refl, fun d hd => .inr hd⟩
  have hgrow := growBody_limited hstart
  generalize growBody conf w = g at h hgrow
  rcases g with w' | t'
  · rw [← hgrow.2]
    exact untilClose_runsToEnd hgrow.1.1 hgrow.1.2 h
  · rw [Feed.feed_inr] at h
    cases h
    exact runsToEnd_growBody (k := 0) rfl (Nat.zero_le _) hgrow

theorem Growing.capacity_lt (hw : Growing conf c bs w) : (w.cur.capacity : Int) < 2 ^ 31 := by
  have := hw.end_lt
  unfold BodyBuf.capacity
  omega

/-- A body above the limit is accepted before a capacity above the limit is reached. -/
theorem Growing.lt_capacity (hw : Growing conf c bs w) (hroom : Spacious conf bs w)
    (hover : conf.maxContentLen < bs.length) {d : Int} (hd : Capacity conf c d)
    (hmax : conf.maxContentLen < d) : bs.length < d := by
  have hle := hw.toHolds.le_capacity
  have hcap : bs.length < w.cur.capacity := by
    rcases hroom with h | h
    · omega
    · exact h
  rcases hw.later d hd with h | h
  · omega
  · rcases h.step with rfl | ⟨h, -⟩
    · omega
    · omega

/-- A buffer that fills and has no successor is the one where the loop stands. -/
theorem Growing.granted (hw : Growing conf c bs w) {d : Int} (hd : Capacity conf c d)
    (hmax : d ≤ conf.maxContentLen) (hrefused : BufRefused (allocBufLen conf d))
    (hle : d ≤ w.cur.capacity) : d = w.cur.capacity ∧ (w.cur.capacity : Int) ≤ conf.maxContentLen := by
  rcases hw.later d hd with h | h
  · exact absurd hrefused h.2
  · have hge := h.le (Int.natCast_nonneg _) hw.capacity_lt
    omega

end Growing

/-! ## Lost connections -/

/-- The peer has closed, or `recv` has failed. -/
def RecvEvent.Lost : RecvEvent → Prop
  | .data bs => bs = []
  | .error _ => True

/-- A loop that is left because of the connection has seen it end. -/
def BodyEnd.AfterLoss (us : List RecvEvent) (t : BodyEnd) : Prop :=
  ∀ w, t = .exit .closed w → ∃ before e, us = before ++ [e] ∧ e.Lost

theorem growBody_afterLoss (conf : Conf) (us : List RecvEvent) (w : Receiving) :
    Sum.elim (fun _ => True) (BodyEnd.AfterLoss us) (growBody conf w) := by
  unfold growBody
  dsimp only
  split_ifs
  · exact fun _ h => by cases h
  · exact fun _ h => by cases h
  · split
    · exact fun _ h => by cases h
    · exact fun _ h => by cases h
    · exact trivial
  · exact trivial

theorem checkBody_afterLoss (n : Int) (us : List RecvEvent) (w : Receiving) :
    Sum.elim (fun _ => True) (BodyEnd.AfterLoss us) (checkBody n w) := by
  unfold checkBody
  split
  · exact fun _ h => by cases h
  · exact trivial

theorem startOfLength_afterLoss (n : Nat) (h : Heap) (errno : Errno) :
    Sum.elim (fun _ => True) (BodyEnd.AfterLoss []) (startOfLength n h errno) := by
  unfold startOfLength
  split
  · exact fun _ h => by cases h
  · exact fun _ h => by cases h
  · exact checkBody_afterLoss n [] _

theorem onBodyUntilClose_afterLoss (conf : Conf) (us : List RecvEvent) (w : Receiving)
    (e : RecvEvent) :
    Sum.elim (fun _ => True) (BodyEnd.AfterLoss (us ++ [e])) (onBodyUntilClose conf w e) := by
  cases e with
  | error e =>
      simp only [onBodyUntilClose]
      split
      · exact trivial
      · exact fun _ _ => ⟨us, _, rfl, trivial⟩
  | data ds =>
      simp only [onBodyUntilClose]
      split_ifs
      · exact trivial
      · exact fun w h => by cases h
      · cases w.cur.recv w.heap ds with
        | error s => exact fun w h => by cases h
        | ok p => exact growBody_afterLoss conf _ _

theorem onBodyOfLength_afterLoss (n : Int) (us : List RecvEvent) (w : Receiving)
    (e : RecvEvent) :
    Sum.elim (fun _ => True) (BodyEnd.AfterLoss (us ++ [e])) (onBodyOfLength n w e) := by
  cases e with
  | error e =>
      simp only [onBodyOfLength]
      split
      · exact trivial
      · exact fun _ _ => ⟨us, _, rfl, trivial⟩
  | data ds =>
      simp only [onBodyOfLength]
      by_cases hds : ds = []
      · rw [if_pos hds]
        split
        · exact trivial
        · exact fun _ _ => ⟨us, _, rfl, hds⟩
      · rw [if_neg hds]
        cases w.cur.recv w.heap ds with
        | error s => exact fun w h => by cases h
        | ok p =>
            dsimp only
            split
            · exact fun w h => by cases h
            · exact checkBody_afterLoss n _ _

/-- The loop of a body is left as closed behind the event that says so. -/
theorem lost_of_closed {on : Receiving → RecvEvent → Receiving ⊕ BodyEnd}
    (hon : ∀ us w e, Sum.elim (fun _ => True) (BodyEnd.AfterLoss (us ++ [e])) (on w e))
    {g : Receiving ⊕ BodyEnd} (hg : Sum.elim (fun _ => True) (BodyEnd.AfterLoss []) g)
    {w : Receiving} {es rest : List RecvEvent}
    (h : Feed.feed on g es = (.inr (.exit .closed w), rest)) :
    ∃ before e, es = before ++ e :: rest ∧ e.Lost := by
  obtain ⟨used, hes, hend⟩ := Feed.feed_history on (P := fun _ _ => True) (Q := BodyEnd.AfterLoss)
    (fun us w e _ => hon us w e) [] hg es
  rw [h] at hes hend
  obtain ⟨before, e, hused, he⟩ := hend w rfl
  rw [List.nil_append] at hused
  exact ⟨before, e, by rw [hes, hused, List.append_assoc]; rfl, he⟩

/-! ## How a body of declared length ends -/

/-- The body is there, or its connection was lost. -/
def BodyEnd.Plain (t : BodyEnd) : Prop := ∀ e w, t = .exit e w → e = .done ∨ e = .closed

theorem checkBody_plain (n : Int) (w : Receiving) :
    Sum.elim (fun _ => True) BodyEnd.Plain (checkBody n w) := by
  unfold checkBody
  split
  · rintro e w' ⟨⟩
    exact .inl rfl
  · exact trivial

theorem onBodyOfLength_plain (n : Int) (w : Receiving) (e : RecvEvent) :
    Sum.elim (fun _ => True) BodyEnd.Plain (onBodyOfLength n w e) := by
  cases e with
  | error e =>
      simp only [onBodyOfLength]
      split
      · exact trivial
      · rintro e w' ⟨⟩
        exact .inr rfl
  | data ds =>
      simp only [onBodyOfLength]
      by_cases hds : ds = []
      · rw [if_pos hds]
        split
        · exact trivial
        · rintro e w' ⟨⟩
          exact .inr rfl
      · rw [if_neg hds]
        cases w.cur.recv w.heap ds with
        | error s => rintro e w' ⟨⟩
        | ok p =>
            dsimp only
            split
            · rintro e w' ⟨⟩
            · exact checkBody_plain n _

/-- The body of `n` bytes fits behind the head, or `buf_create` has a buffer of `n` bytes. -/
def Heap.GrantsBody (h : Heap) (n : Int) : Prop :=
  n ≤ ((h.buf h.headerBuf).end_ : Int) - (h.buf h.headerBuf).pos ∨ ¬ BufRefused n

/-- The loop is entered exactly where there is a buffer for the body. -/
theorem startOfLength_plain {n : Nat} {h : Heap} {errno : Errno} (hgrant : h.GrantsBody n) :
    Sum.elim (fun _ => True) BodyEnd.Plain (startOfLength n h errno) := by
  unfold startOfLength
  rcases hcreate : bodyBufOf h n with s | _ | ⟨b, h'⟩
  · rintro e w' ⟨⟩
  · unfold bodyBufOf at hcreate
    dsimp only at hcreate
    split at hcreate
    · have hrefused := Heap.bodyCreate_eq_none.mp hcreate
      rcases hgrant with hle | hno
      · omega
      · exact absurd hrefused hno
    · cases hcreate
  · exact checkBody_plain n _

theorem startOfLength_refused {n : Nat} {h : Heap} {errno : Errno} (hno : ¬ h.GrantsBody n) :
    startOfLength n h errno = .inr (.exit .noMemory (receivingOf h.unreadBody h errno)) := by
  unfold Heap.GrantsBody at hno
  push Not at hno
  have hcreate : bodyBufOf h n = .ok none := by
    unfold bodyBufOf
    dsimp only
    rw [if_pos hno.1]
    exact Heap.bodyCreate_eq_none.mpr hno.2
  unfold startOfLength
  rw [hcreate]

section OfLength

variable {conf : Conf} {phase : Phase} {r r' : HttpRequest} {io io' : Io} {ok : Bool}

/-- A body of a declared length within the limit is received, or its connection lost. -/
theorem bodyOfLength_cases {n : Nat} (hgrant : r.toHeap.GrantsBody n)
    (h : bodyOfLength phase n r io = .ret (ok, r', io')) :
    (ok = true ∧ (r'.body phase).contentLen = n ∧ (r'.body phase).content ≠ none) ∨
      (ok = false ∧ r'.status = HTTP_STATUS_CLOSE ∧
        ∃ before e, io.recvs = before ++ e :: io'.recvs ∧ e.Lost) := by
  obtain ⟨e, w, recvs, hfeed, rfl, rfl, rfl⟩ := bodyOfLength_ret h
  have hend := Feed.feed_invariant (onBodyOfLength n) (fun w e (_ : True) =>
    onBodyOfLength_plain n w e) (@startOfLength_plain n r.toHeap io.errno hgrant) io.recvs
  rw [show Feed.feed _ _ io.recvs = _ from hfeed] at hend
  obtain rfl | rfl := hend e w rfl
  · refine .inl ⟨rfl, ?_, ?_⟩
    · cases phase <;> rfl
    · cases phase <;> exact fun h => by cases h
  · refine .inr ⟨rfl, rfl, ?_⟩
    exact lost_of_closed (onBodyOfLength_afterLoss n) (startOfLength_afterLoss n _ _) hfeed

/-- A body that gets no buffer is answered with 500. -/
theorem bodyOfLength_refused {n : Nat} (hno : ¬ r.toHeap.GrantsBody n)
    (h : bodyOfLength phase n r io = .ret (ok, r', io')) :
    ok = false ∧ r'.status = HTTP_STATUS_INTERNAL_SERVER_ERROR := by
  obtain ⟨e, w, recvs, hfeed, rfl, rfl, rfl⟩ := bodyOfLength_ret h
  rw [ofLengthLoop, startOfLength_refused hno, Feed.feed_inr] at hfeed
  cases hfeed
  exact ⟨rfl, rfl⟩

end OfLength

/-! ## The limit -/

/-- What a body that was received, or not, has to do with the limit. -/
structure BodyLimited (conf : Conf) (phase : Phase) (io : Io) (ok : Bool) (r' : HttpRequest)
    (io' : Io) : Prop where
  /-- A body that is there is within the limit. -/
  accepted : ok = true → (r'.body phase).content ≠ none →
    (r'.body phase).contentLen ≤ conf.maxContentLen
  /-- Without one the request is bad, or its connection was lost. -/
  rejected : ok = false → r'.status = HTTP_STATUS_BAD_REQUEST ∨
    (r'.status = HTTP_STATUS_CLOSE ∧ ∃ before e, io.recvs = before ++ e :: io'.recvs ∧ e.Lost)

/-- The capacity of the buffer a body without a declared length starts in. -/
def Heap.space (h : Heap) : Int :=
  ((h.buf h.headerBuf).end_ - (h.buf h.headerBuf).pos : Nat)

/-- A body that ends with the peer's close, if it is above the limit, reaches a capacity
    above the limit before. -/
def LimitReached (conf : Conf) (r : HttpRequest) (io : Io) : Prop :=
  ∀ n, bytesToClose io.errno io.recvs = some n →
    (((r.buf r.headerBuf).unread.length + n : Nat) : Int) ≤ conf.maxContentLen ∨
      ∃ d, Capacity conf r.toHeap.space d ∧
        conf.maxContentLen < d ∧ d ≤ ((r.buf r.headerBuf).unread.length + n : Nat)

/-- `buf_create` has a larger buffer for each one within the limit that fills. -/
def BuffersGranted (conf : Conf) (r : HttpRequest) (io : Io) : Prop :=
  ∀ d, Capacity conf r.toHeap.space d → d ≤ conf.maxContentLen →
    d ≤ ((r.buf r.headerBuf).unread.length + bytesToEnd io.errno io.recvs : Nat) →
    ¬ BufRefused (allocBufLen conf d)

/-- When the limit holds of a body with the length `contentLen`. -/
structure LimitMet (conf : Conf) (contentLen : Int) (r : HttpRequest) (io : Io) : Prop where
  untilClose : contentLen < 0 → r.method ≠ .head → LimitReached conf r io ∧ BuffersGranted conf r io
  ofLength : 0 < contentLen → contentLen ≤ conf.maxContentLen → r.method ≠ .head →
    r.toHeap.GrantsBody contentLen

section Limit

variable {conf : Conf} {phase : Phase} {n : Int} {r r' : HttpRequest} {io io' : Io} {ok : Bool}

/-- A loop that goes to the peer's close, or to the connection's end, gets all its buffers. -/
theorem granted_of_spacious {c : Int} {bs : List Byte} {w : Receiving} (hw : Growing conf c bs w)
    (hroom : Spacious conf bs w) {d : Int} (hd : Capacity conf c d) (hmax : d ≤ conf.maxContentLen)
    (hle : d ≤ bs.length) : ¬ BufRefused (allocBufLen conf d) := by
  intro hrefused
  have hcap := hw.toHolds.le_capacity
  obtain ⟨rfl, -⟩ := hw.granted hd hmax hrefused (by omega)
  rcases hroom with h | h
  · rw [show (bs.length : Int) = w.cur.capacity by omega] at h
    exact h.2 hrefused
  · omega

/-- The bytes of a body fill a buffer that is not replaced by a larger one: it is above the
    limit, or there is none. -/
def Outgrown (conf : Conf) (r : HttpRequest) (io : Io) (d : Int) : Prop :=
  Capacity conf r.toHeap.space d ∧
    d ≤ ((r.buf r.headerBuf).unread.length + bytesToEnd io.errno io.recvs : Nat) ∧
    (conf.maxContentLen < d ∨ BufRefused (allocBufLen conf d))

/-- A body without a declared length that fails has lost its connection, or has come to a
    buffer that is not replaced; the bytes up to there are counted. -/
theorem bodyUntilClose_failed (hk : r.headerBuf < r.bufs.length)
    (hbuf : (r.buf r.headerBuf).Valid)
    (h : bodyUntilClose conf phase r io = .ret (false, r', io')) :
    (r'.status = HTTP_STATUS_CLOSE ∧ ∀ d, ¬ Outgrown conf r io d) ∨
      ((r'.status = HTTP_STATUS_BAD_REQUEST ∨ r'.status = HTTP_STATUS_INTERNAL_SERVER_ERROR) ∧
        Outgrown conf r io (r'.body phase).contentLen) := by
  obtain ⟨e, w, recvs, hfeed, hok, hr', -⟩ := bodyUntilClose_ret h
  have hstatus : r'.status = e.status r.status := by rw [hr']
  have hbody : r'.body phase = e.body { r.body phase with contentLen := w.len } w w.len := by
    rw [hr']
    cases phase <;> rfl
  have hrun : RunsToEnd conf r.toHeap.space (r.buf r.headerBuf).unread io.errno io.recvs
      (.exit e w) := growBody_runsToEnd (holds_of_valid hk hbuf io.errno) hfeed
  obtain ⟨bs, ⟨hw, hlim⟩, hle, hall⟩ := hrun.limited
  have hlen := hw.len
  cases e with
  | done => cases hok
  | closed =>
      refine .inl ⟨hstatus, fun d hd => ?_⟩
      obtain ⟨hreach, hd', hend⟩ := hd
      have hbs := hall _ w rfl (.inr rfl)
      by_cases hmax : d ≤ conf.maxContentLen
      · have hrefused := hend.resolve_left (by omega)
        exact granted_of_spacious hw hlim hreach hmax (by omega) hrefused
      · have := hw.lt_capacity hlim (by omega) hreach (by omega)
        omega
  | badRequest =>
      have hcount : (r'.body phase).contentLen = w.cur.capacity := by
        rw [hbody]
        show w.len = w.cur.capacity
        omega
      rw [hcount]
      exact .inr ⟨.inl hstatus, hw.reach, by omega, .inl hlim.2⟩
  | noMemory =>
      have hcount : (r'.body phase).contentLen = w.cur.capacity := by
        rw [hbody]
        show w.len = w.cur.capacity
        omega
      rw [hcount]
      exact .inr ⟨.inr hstatus, hw.reach, by omega, .inr hlim.2.2⟩

theorem bodyUntilClose_limited_iff (hk : r.headerBuf < r.bufs.length)
    (hbuf : (r.buf r.headerBuf).Valid) (h : bodyUntilClose conf phase r io = .ret (ok, r', io')) :
    BodyLimited conf phase io ok r' io' ↔ LimitReached conf r io ∧ BuffersGranted conf r io := by
  obtain ⟨e, w, recvs, hfeed, rfl, rfl, rfl⟩ := bodyUntilClose_ret h
  have hrun : RunsToEnd conf r.toHeap.space (r.buf r.headerBuf).unread io.errno io.recvs
      (.exit e w) := growBody_runsToEnd (holds_of_valid hk hbuf io.errno) hfeed
  obtain ⟨bs, ⟨hw, hlim⟩, hle, hall⟩ := hrun.limited
  cases e with
  | done =>
      have hlen := hall _ w rfl (.inl rfl)
      have hm := hrun.done w rfl
      have hgranted : BuffersGranted conf r io := fun d hd hmax hd' =>
        granted_of_spacious hw hlim hd hmax (by omega)
      constructor
      · intro hbody
        refine ⟨fun m hm' => ?_, hgranted⟩
        obtain rfl : m = bytesToEnd io.errno io.recvs := (bytesToEnd_of_close hm').symm
        have hle := hbody.accepted rfl (by cases phase <;> exact fun h => by cases h)
        left
        rw [← hlen, ← hw.len]
        cases phase <;> exact hle
      · rintro ⟨hreached, -⟩
        refine ⟨fun _ _ => ?_, fun h => by cases h⟩
        have hle : w.len ≤ conf.maxContentLen := by
          by_contra hover
          rw [hw.len] at hover
          rcases hreached _ hm with hle | ⟨d, hd, hmax, hle⟩
          · omega
          · have := hw.lt_capacity hlim (by omega) hd hmax
            omega
        cases phase <;> exact hle
  | badRequest =>
      obtain ⟨hfull, hover⟩ := hlim
      refine iff_of_true ⟨fun h => (by cases h), fun _ => .inl rfl⟩ ⟨fun m hm => ?_, ?_⟩
      · have := bytesToEnd_of_close hm
        exact .inr ⟨_, hw.reach, hover, by omega⟩
      · intro d hd hmax _ hrefused
        obtain ⟨-, hcap⟩ := hw.granted hd hmax hrefused (by omega)
        omega
  | closed =>
      have hlen := hall _ w rfl (.inr rfl)
      refine iff_of_true ⟨fun h => (by cases h), fun _ => .inr ⟨rfl, ?_⟩⟩ ⟨fun m hm => ?_, ?_⟩
      · exact lost_of_closed (onBodyUntilClose_afterLoss conf) (growBody_afterLoss conf _ _) hfeed
      · rw [hrun.closed w rfl] at hm
        cases hm
      · intro d hd hmax hd'
        exact granted_of_spacious hw hlim hd hmax (by omega)
  | noMemory =>
      obtain ⟨hfull, hmax, hrefused⟩ := hlim
      refine iff_of_false (fun hbody => ?_) fun h => ?_
      · -- the status is 500
        rcases hbody.rejected rfl with h | ⟨h, -⟩
        · exact absurd (show HTTP_STATUS_INTERNAL_SERVER_ERROR = HTTP_STATUS_BAD_REQUEST from h)
            (by decide)
        · exact absurd (show HTTP_STATUS_INTERNAL_SERVER_ERROR = HTTP_STATUS_CLOSE from h)
            (by decide)
      · exact h.2 _ hw.reach hmax (by omega) hrefused

theorem bodyOfLength_limited_iff {n : Nat} (hmax : n ≤ conf.maxContentLen)
    (h : bodyOfLength phase n r io = .ret (ok, r', io')) :
    BodyLimited conf phase io ok r' io' ↔ r.toHeap.GrantsBody n := by
  by_cases hgrant : r.toHeap.GrantsBody n
  · refine iff_of_true ?_ hgrant
    rcases bodyOfLength_cases hgrant h with ⟨rfl, hlen, -⟩ | ⟨rfl, hstatus, hlost⟩
    · exact ⟨fun _ _ => by rw [hlen]; exact hmax, fun h => by cases h⟩
    · exact ⟨fun h => (by cases h), fun _ => .inr ⟨hstatus, hlost⟩⟩
  · refine iff_of_false (fun hbody => ?_) hgrant
    obtain ⟨hok, hstatus⟩ := bodyOfLength_refused hgrant h
    rcases hbody.rejected hok with h | ⟨h, -⟩
    · rw [hstatus] at h
      exact absurd h (by decide)
    · rw [hstatus] at h
      exact absurd h (by decide)

/-- The limit holds of a body unless the peer closes behind more bytes than allowed and
    fewer than the first capacity above the limit, or a buffer within the limit is one that
    `buf_create` does not make. -/
theorem httpProcessContentBody_limited_iff (hk : r.headerBuf < r.bufs.length)
    (hbuf : (r.buf r.headerBuf).Valid) (hnone : (r.body phase).content = none)
    (h : httpProcessContentBody conf phase n r io = .ret (ok, r', io')) :
    BodyLimited conf phase io ok r' io' ↔ LimitMet conf n r io := by
  have hnone' : (HttpRequest.body { r with state := .contentBody } phase).content = none := by
    cases phase <;> exact hnone
  -- no body was taken
  have hempty : BodyLimited conf phase io true { r with state := .contentBody } io :=
    ⟨fun _ h => absurd hnone' h, fun hok => absurd hok (by decide)⟩
  by_cases hstate : r.state = .headerLine
  case neg =>
    rw [httpProcessContentBody, if_pos hstate] at h
    cases h
  by_cases hhead : r.method = .head
  · have hret : httpProcessContentBody conf phase n r io
        = .ret (true, { r with state := .contentBody }, io) := by
      simp only [httpProcessContentBody, hstate, hhead, ne_eq, not_true_eq_false, if_false, if_true]
    rw [hret] at h
    cases h
    exact iff_of_true hempty ⟨fun _ h => absurd hhead h, fun _ _ h => absurd hhead h⟩
  rcases Int.lt_trichotomy n 0 with hn | rfl | hn
  · rw [httpProcessContentBody_untilClose hstate hhead hn] at h
    rw [bodyUntilClose_limited_iff (r := { r with state := .contentBody }) hk hbuf h]
    exact ⟨fun h => ⟨fun _ _ => h, fun h => by omega⟩, fun h => h.untilClose hn hhead⟩
  · rw [httpProcessContentBody_empty hstate hhead] at h
    cases h
    exact iff_of_true hempty ⟨fun h => by omega, fun h => by omega⟩
  · by_cases hle : n ≤ conf.maxContentLen
    · rw [httpProcessContentBody_ofLength hstate hhead hn hle] at h
      rw [bodyOfLength_limited_iff (by omega) h, Int.toNat_of_nonneg (by omega)]
      exact ⟨fun h => ⟨fun h => by omega, fun _ _ _ => h⟩, fun h => h.ofLength hn hle hhead⟩
    · rw [httpProcessContentBody_tooLarge hstate hhead hn (by omega)] at h
      cases h
      exact iff_of_true ⟨fun hok => absurd hok (by decide), fun _ => .inl rfl⟩
        ⟨fun h => by omega, fun _ h => absurd h hle⟩

/-- A response whose head is parsed, with space for three bytes behind it. -/
def headParsed : HttpRequest := { state := .headerLine, bufs := [bufCreate 3] }

/-- What a backend sends: five bytes, and its close. -/
def fiveBytes : List RecvEvent := [.data (bytes "abc"), .data (bytes "de"), .data []]

/-- A body of five bytes, ended by the peer's close: it is within the limit, and so are the
    capacities of 3 and 16 up to there, which have successors. -/
theorem httpProcessContentBody_limited_five :
    ∃ r' io', httpProcessContentBody exampleConf .response (-1) headParsed
        { recvs := fiveBytes } = .ret (true, r', io') ∧
      BodyLimited exampleConf .response { recvs := fiveBytes } true r' io' := by
  obtain ⟨r', io', h⟩ : ∃ r' io', httpProcessContentBody exampleConf .response (-1) headParsed
      { recvs := fiveBytes } = .ret (true, r', io') := ⟨_, _, rfl⟩
  refine ⟨r', io', h, (httpProcessContentBody_limited_iff (by decide)
    ⟨by decide, by decide, by decide, by decide⟩ rfl h).mpr ⟨fun _ _ => ⟨?_, ?_⟩, ?_⟩⟩
  · intro n hn
    obtain rfl := Option.some.inj (hn.symm.trans (by decide : _ = some 5))
    exact .inl (by decide)
  · intro d hd _ hle
    have hd0 := hd.le (by decide) (by decide)
    have hle5 : d ≤ 5 := hle
    have halloc : allocBufLen exampleConf d = 16 := if_pos (by
      show d < 16
      omega)
    rw [halloc]
    decide
  · exact fun h => absurd h (by decide)

/-- The capacities are 3, 16, 24, 36, 54 and 81: at 65 bytes the limit of 64 has not been
    looked at. -/
theorem not_limited_sixtyFive :
    ∃ r' io', httpProcessContentBody exampleConf .response (-1) headParsed
        { recvs := [3, 13, 8, 12, 18, 11, 0].map fun n => .data (List.replicate n 97) }
        = .ret (true, r', io') ∧
      ¬ BodyLimited exampleConf .response
        { recvs := [3, 13, 8, 12, 18, 11, 0].map fun n => .data (List.replicate n 97) }
        true r' io' := by
  refine ⟨_, _, rfl, fun h => ?_⟩
  have hle := h.accepted rfl (by decide)
  revert hle
  decide

end Limit

end XwpServer
