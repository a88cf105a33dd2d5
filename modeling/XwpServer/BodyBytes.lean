/-
  XwpServer.BodyBytes

  The bytes of a received body.

  Both loops of `http_process_content_body` keep what they have received, behind the
  bytes the head left unread, between `pos` and `last` of one buffer (`Holds`), whether
  that is the header buffer, a block of the declared length, or one that has grown.
-/

import XwpServer.Accepted

namespace XwpServer

open CString

/-- The bytes that some outcomes of `recv` bring. -/
def recvBytes (es : List RecvEvent) : List Byte :=
  es.flatMap fun
    | .data bs => bs
    | .error _ => []

@[simp] theorem recvBytes_append (es fs : List RecvEvent) :
    recvBytes (es ++ fs) = recvBytes es ++ recvBytes fs := by simp [recvBytes]

@[simp] theorem recvBytes_data (bs : List Byte) : recvBytes [.data bs] = bs := by simp [recvBytes]

@[simp] theorem recvBytes_error (e : Errno) : recvBytes [.error e] = [] := rfl

theorem recvBytes_map_data (ps : List (List Byte)) : recvBytes (ps.map .data) = ps.flatten := by
  induction ps with
  | nil => rfl
  | cons p ps ih =>
      rw [List.flatten_cons, ← ih]
      rfl

/-! ## Buffers -/

/-- `start <= pos <= last <= end`, inside the block; the size of a block is an `int`. -/
structure Buf.Valid (b : Buf) : Prop where
  pos_le : b.pos ≤ b.last
  last_le : b.last ≤ b.end_
  end_le : b.end_ ≤ b.mem.length
  end_lt : b.end_ < 2 ^ 31

/-- The bytes between `pos` and `last`. -/
def Heap.contents (h : Heap) (b : BodyBuf) : List Byte :=
  ((h.buf b.block).mem.drop b.pos).take (b.last - b.pos)

/-- The buffer of a receive loop holds the bytes `bs`, and the loop has counted them. -/
structure Holds (bs : List Byte) (w : Receiving) : Prop where
  lt : w.cur.block < w.heap.bufs.length
  pos_le : w.cur.pos ≤ w.cur.last
  last_le : w.cur.last ≤ w.cur.end_
  end_le : w.cur.end_ ≤ (w.heap.buf w.cur.block).mem.length
  end_lt : w.cur.end_ < 2 ^ 31
  contents : w.heap.contents w.cur = bs
  len : w.len = bs.length

section Holds

variable {bs ds : List Byte} {w : Receiving}

theorem Holds.length (hw : Holds bs w) : bs.length = w.cur.last - w.cur.pos := by
  have := hw.pos_le
  have := hw.last_le
  have := hw.end_le
  rw [← hw.contents, Heap.contents, List.length_take, List.length_drop]
  omega

theorem Holds.setErrno (hw : Holds bs w) (e : Errno) : Holds bs { w with errno := e } :=
  ⟨hw.lt, hw.pos_le, hw.last_le, hw.end_le, hw.end_lt, hw.contents, hw.len⟩

/-- The header buffer with its unread bytes. -/
theorem holds_of_valid {h : Heap} (hk : h.headerBuf < h.bufs.length)
    (hb : (h.buf h.headerBuf).Valid) (errno : Errno) :
    Holds (h.buf h.headerBuf).unread (receivingOf h.unreadBody h errno) where
  lt := hk
  pos_le := hb.pos_le
  last_le := hb.last_le
  end_le := hb.end_le
  end_lt := hb.end_lt
  contents := rfl
  len := by
    have := hb.pos_le
    have := hb.last_le
    have := hb.end_le
    show ((h.buf h.headerBuf).last : Int) - (h.buf h.headerBuf).pos = _
    simp only [Buf.unread, List.length_take, List.length_drop]
    omega

/-- A `recv` that fits is stored behind the bytes; another is no outcome of `recv`. -/
theorem Holds.recv (hw : Holds bs w) (ds : List Byte) :
    w.cur.recv w.heap ds = .error .misfit ∨
      ∃ cur h, w.cur.recv w.heap ds = .ok (cur, h) ∧ cur.pos = w.cur.pos ∧
        cur.end_ = w.cur.end_ ∧
        Holds (bs ++ ds) { w with cur := cur, heap := h, len := w.len + ds.length } := by
  obtain ⟨hlt, hpos, hlast, hend, hend31, hcontents, hlen⟩ := hw
  have hspace : ptrDiff w.cur.end_ w.cur.last = w.cur.end_ - w.cur.last := by
    unfold ptrDiff
    omega
  simp only [BodyBuf.recv, hspace]
  by_cases hfit : w.cur.end_ - w.cur.last < ds.length
  · exact .inl (if_pos hfit)
  · right
    rw [if_neg hfit, if_neg (by omega)]
    have hbuf := Heap.buf_setBuf hlt
      { w.heap.buf w.cur.block with mem := writeAt (w.heap.buf w.cur.block).mem w.cur.last ds }
    have hmem : (writeAt (w.heap.buf w.cur.block).mem w.cur.last ds).length
        = (w.heap.buf w.cur.block).mem.length := writeAt_length (by omega)
    refine ⟨_, _, rfl, rfl, rfl, ?_, ?_, ?_, ?_, hend31, ?_, ?_⟩
    · simpa using hlt
    · show w.cur.pos ≤ w.cur.last + ds.length
      omega
    · show w.cur.last + ds.length ≤ w.cur.end_
      omega
    · show w.cur.end_ ≤ (Heap.buf _ w.cur.block).mem.length
      rw [hbuf, hmem]
      exact hend
    · -- the new bytes stand behind the old ones
      show ((Heap.buf _ w.cur.block).mem.drop w.cur.pos).take
        (w.cur.last + ds.length - w.cur.pos) = bs ++ ds
      rw [hbuf, ← hcontents, Heap.contents, ← List.drop_take, ← List.drop_take,
        take_end_writeAt (by omega), List.drop_append_of_le_length (by simp; omega)]
    · show w.len + ds.length = ((bs ++ ds).length : Nat)
      rw [hlen, List.length_append]
      omega

end Holds

/-! ## Growing -/

/-- The number of bytes a buffer can hold. -/
def BodyBuf.capacity (b : BodyBuf) : Nat := b.end_ - b.pos

theorem Holds.le_capacity {bs : List Byte} {w : Receiving} (hw : Holds bs w) :
    bs.length ≤ w.cur.capacity := by
  have := hw.length
  have := hw.last_le
  unfold BodyBuf.capacity
  omega

/-- A new block that starts with `bs`. -/
theorem holds_bodyCreate {h h' : Heap} {size : Nat} {bs : List Byte} {b : BodyBuf}
    (hb : h.bodyCreate size bs = .ok (some (b, h'))) (errno : Errno) {len : Int}
    (hlen : len = bs.length) : Holds bs ⟨b, h', errno, len⟩ := by
  obtain ⟨hsize, hbs, rfl, rfl⟩ := Heap.bodyCreate_some hb
  have hmem : (Heap.buf { h with bufs := h.bufs ++ [⟨writeAt (bufCreate size).mem 0 bs, 0, 0, size⟩] }
      h.bufs.length).mem = writeAt (List.replicate size NUL) 0 bs := by
    simp [Heap.buf, bufCreate]
  refine ⟨?_, Nat.zero_le _, hbs, ?_, ?_, ?_, hlen⟩
  · show h.bufs.length < (h.bufs ++ [_]).length
    simp
  · dsimp only
    rw [hmem, writeAt_length (by simpa using hbs), List.length_replicate]
  · show size < 2 ^ 31
    unfold BufRefused at hsize
    omega
  · rw [Heap.contents, hmem]
    simp [writeAt]

/-- All that `growBody` can do with a buffer that holds `bs`: there is room, or the limit is
    passed, or the size of a new buffer is one that `buf_create` asserts against or refuses, or
    the buffer grows. -/
theorem growBody_cases (conf : Conf) {bs : List Byte} {w : Receiving} (hw : Holds bs w) :
    (w.cur.last < w.cur.end_ ∧ growBody conf w = .inl w) ∨
    (w.cur.last = w.cur.end_ ∧ conf.maxContentLen < w.cur.capacity ∧
      growBody conf w = .inr (.exit .badRequest w)) ∨
    (w.cur.last = w.cur.end_ ∧ (w.cur.capacity : Int) ≤ conf.maxContentLen ∧
      allocBufLen conf w.cur.capacity < w.cur.capacity ∧ ∃ s, growBody conf w = .inr (.stop s)) ∨
    (w.cur.last = w.cur.end_ ∧ (w.cur.capacity : Int) ≤ conf.maxContentLen ∧
      BufRefused (allocBufLen conf w.cur.capacity) ∧
      growBody conf w = .inr (.exit .noMemory w)) ∨
    (w.cur.last = w.cur.end_ ∧ (w.cur.capacity : Int) ≤ conf.maxContentLen ∧
      ¬ BufRefused (allocBufLen conf w.cur.capacity) ∧
      ∃ w', growBody conf w = .inl w' ∧ Holds bs w' ∧ w'.errno = w.errno ∧
        (w'.cur.capacity : Int) = allocBufLen conf w.cur.capacity) := by
  have hpos := hw.pos_le
  have hlast := hw.last_le
  by_cases hfull : w.cur.last = w.cur.end_
  case neg => exact .inl ⟨by omega, if_neg hfull⟩
  right
  have hlen : ((w.cur.last : Int) - w.cur.pos) = (w.cur.capacity : Int) := by
    unfold BodyBuf.capacity
    omega
  simp only [growBody, if_pos hfull, hlen]
  by_cases hmax : (w.cur.capacity : Int) > conf.maxContentLen
  · rw [if_pos hmax]
    exact .inl ⟨hfull, hmax, rfl⟩
  rw [if_neg hmax]
  right
  by_cases hneg : allocBufLen conf w.cur.capacity < 0
  · rw [if_pos hneg]
    exact .inl ⟨hfull, by omega, by omega, _, rfl⟩
  have hbs : ((w.heap.buf w.cur.block).mem.drop w.cur.pos).take (w.cur.last - w.cur.pos) = bs :=
    hw.contents
  have hcap : bs.length = w.cur.capacity := by
    rw [hw.length, hfull, BodyBuf.capacity]
  have hnat : ((allocBufLen conf w.cur.capacity).toNat : Int) = allocBufLen conf w.cur.capacity := by
    omega
  rw [if_neg hneg, hbs]
  rcases hcreate : w.heap.bodyCreate (allocBufLen conf w.cur.capacity).toNat bs with
    s | _ | ⟨cur, h⟩
  · -- the copy is larger than the block
    have hsmall := Heap.bodyCreate_error hcreate
    exact .inl ⟨hfull, by omega, by omega, _, rfl⟩
  · have hrefused := Heap.bodyCreate_eq_none.mp hcreate
    rw [hnat] at hrefused
    exact .inr (.inl ⟨hfull, by omega, hrefused, rfl⟩)
  · obtain ⟨hsize, -, rfl, -⟩ := Heap.bodyCreate_some hcreate
    refine .inr (.inr ⟨hfull, by omega, hnat ▸ hsize, _, rfl, ?_, rfl, ?_⟩)
    · exact holds_bodyCreate hcreate _ hw.len
    · show ((allocBufLen conf w.cur.capacity).toNat - 0 : Nat) = allocBufLen conf w.cur.capacity
      omega

/-- With these sizes the buffer always grows, and fits into an `int`. -/
structure Conf.GrowingBodies (conf : Conf) : Prop where
  two_le : 2 ≤ conf.contentBodyBufSize
  lt : conf.contentBodyBufSize < 2 ^ 31
  max_le : conf.maxContentLen ≤ 2 ^ 30

theorem Conf.GrowingBodies.lt_allocBufLen {conf : Conf} (hconf : conf.GrowingBodies) {n : Int}
    (h0 : 0 ≤ n) (hn : n ≤ conf.maxContentLen) : n < allocBufLen conf n := by
  have := hconf.two_le
  have := hconf.max_le
  unfold allocBufLen
  split
  · assumption
  · have hcut : toInt32 (n + n / 2) = n + n / 2 := by
      apply Int.bmod_eq_of_le <;> omega
    omega

/-- The loop goes on with space behind its bytes, or rejects them for their number, or gets
    no buffer for them. -/
theorem growBody_room {conf : Conf} (hconf : conf.GrowingBodies) {bs : List Byte} {w : Receiving}
    (hw : Holds bs w) :
    (∃ w', growBody conf w = .inl w' ∧ Holds bs w' ∧ w'.cur.last < w'.cur.end_) ∨
      ∃ e, growBody conf w = .inr (.exit e w) ∧ e ≠ .done := by
  obtain ⟨hroom, h⟩ | ⟨-, -, h⟩ | ⟨-, hmax, halloc, -⟩ | ⟨-, -, -, h⟩ |
    ⟨hfull, hmax, -, w', h, hw', -, hcap⟩ := growBody_cases conf hw
  · exact .inl ⟨w, h, hw, hroom⟩
  · exact .inr ⟨_, h, by decide⟩
  · have := hconf.lt_allocBufLen (by omega) hmax
    omega
  · exact .inr ⟨_, h, by decide⟩
  · refine .inl ⟨w', h, hw', ?_⟩
    -- the new buffer is larger than the old one, which was full
    have hgrown := hconf.lt_allocBufLen (by omega) hmax
    have hold := hw.length
    have hnew := hw'.length
    have := hw'.pos_le
    simp only [BodyBuf.capacity] at hcap hgrown
    omega

/-! ## The loops -/

/-- How a receive loop can end that has received the bytes `bs`. -/
def BodyEnd.Holds (bs : List Byte) : BodyEnd → Prop
  | .stop s => s = .misfit
  | .exit .done w => XwpServer.Holds bs w
  | .exit _ _ => True

theorem BodyEnd.holds_exit {bs : List Byte} {e : BodyExit} {w : Receiving} (he : e ≠ .done) :
    (BodyEnd.exit e w).Holds bs := by
  cases e with
  | done => exact absurd rfl he
  | badRequest => exact trivial
  | closed => exact trivial
  | noMemory => exact trivial

section Loops

variable {conf : Conf} {bs u : List Byte} {w : Receiving}

/-- One `recv` of the loop that ends with the peer's close. -/
theorem onBodyUntilClose_holds (hconf : conf.GrowingBodies) (hw : Holds bs w) (e : RecvEvent)
    (hroom : w.cur.last < w.cur.end_) :
    Sum.elim (fun w' => Holds (bs ++ recvBytes [e]) w' ∧ w'.cur.last < w'.cur.end_)
      (fun t => t.Holds (bs ++ recvBytes [e]) ∧ ∀ w', t = .exit .done w' → e = .data [])
      (onBodyUntilClose conf w e) := by
  cases e with
  | error e =>
      rw [recvBytes_error, List.append_nil]
      simp only [onBodyUntilClose]
      split
      · exact ⟨hw.setErrno e, hroom⟩
      · exact ⟨trivial, fun _ h => by cases h⟩
  | data ds =>
      rw [recvBytes_data]
      simp only [onBodyUntilClose]
      -- the peer's close is the only end that keeps the body
      by_cases hds : ds = []
      · subst hds
        rw [if_pos rfl, List.append_nil]
        split
        · exact ⟨hw, hroom⟩
        · exact ⟨hw, fun _ _ => rfl⟩
      rw [if_neg hds]
      obtain h | ⟨cur, h', h, -, -, hw'⟩ := hw.recv ds
      · rw [h]
        exact ⟨rfl, fun _ h => by cases h⟩
      · simp only [h]
        obtain ⟨w', h, hw'', hroom'⟩ | ⟨x, h, hx⟩ := growBody_room hconf hw'
        · rw [h]
          exact ⟨hw'', hroom'⟩
        · rw [h]
          exact ⟨BodyEnd.holds_exit hx, fun _ h => absurd (BodyEnd.exit.inj h).1 hx⟩

theorem checkBody_holds {n : Nat} (hw : Holds bs w)
    (hroom : n - bs.length ≤ w.cur.end_ - w.cur.last) :
    Sum.elim (fun w' => Holds bs w' ∧ bs.length < n ∧ n - bs.length ≤ w'.cur.end_ - w'.cur.last)
      (fun t => t.Holds bs ∧ ∀ w', t = .exit .done w' → n ≤ bs.length) (checkBody n w) := by
  have hlen := hw.len
  unfold checkBody
  split
  · refine ⟨hw, fun w' _ => ?_⟩
    omega
  · refine ⟨hw, ?_, hroom⟩
    omega

/-- One `recv` of the loop for a body of `n` bytes, in a buffer with space for them. -/
theorem onBodyOfLength_holds {n : Nat} (hw : Holds bs w) (e : RecvEvent) (hlt : bs.length < n)
    (hroom : n - bs.length ≤ w.cur.end_ - w.cur.last) :
    Sum.elim (fun w' => Holds (bs ++ recvBytes [e]) w' ∧ (bs ++ recvBytes [e]).length < n ∧
        n - (bs ++ recvBytes [e]).length ≤ w'.cur.end_ - w'.cur.last)
      (fun t => t.Holds (bs ++ recvBytes [e]) ∧
        ∀ w', t = .exit .done w' → n ≤ (bs ++ recvBytes [e]).length)
      (onBodyOfLength n w e) := by
  cases e with
  | error e =>
      rw [recvBytes_error, List.append_nil]
      simp only [onBodyOfLength]
      split
      · exact ⟨hw.setErrno e, hlt, hroom⟩
      · exact ⟨trivial, fun _ h => by cases h⟩
  | data ds =>
      rw [recvBytes_data]
      simp only [onBodyOfLength]
      by_cases hds : ds = []
      · subst hds
        rw [if_pos rfl, List.append_nil]
        split
        · exact ⟨hw, hlt, hroom⟩
        · exact ⟨trivial, fun _ h => by cases h⟩
      rw [if_neg hds]
      obtain h | ⟨cur, h', h, hpos, hend, hw'⟩ := hw.recv ds
      · rw [h]
        exact ⟨rfl, fun _ h => by cases h⟩
      · simp only [h]
        have hlen := hw'.len
        have hold := hw.length
        have hnew : (bs ++ ds).length = cur.last - cur.pos := hw'.length
        have hlast : cur.last ≤ cur.end_ := hw'.last_le
        have hle : cur.pos ≤ cur.last := hw'.pos_le
        have hwlast := hw.last_le
        have hwpos := hw.pos_le
        have hsum : (bs ++ ds).length = bs.length + ds.length := List.length_append
        -- what is missing of the body fits behind what is there
        have hroom' : n - (bs ++ ds).length ≤ cur.end_ - cur.last := by omega
        rw [if_neg (by dsimp only at hlen ⊢; omega)]
        exact checkBody_holds hw' hroom'

/-- The states and the end of the loop that ends with the peer's close. -/
theorem untilClose_history (hconf : conf.GrowingBodies) (hw : Holds bs w) (es : List RecvEvent) :
    ∃ used, es = used ++ (Feed.feed (onBodyUntilClose conf) (growBody conf w) es).2 ∧
      Sum.elim (fun w' => Holds (bs ++ recvBytes used) w' ∧ w'.cur.last < w'.cur.end_)
        (fun t => t.Holds (bs ++ recvBytes used) ∧
          ∀ w', t = .exit .done w' → ∃ before, used = before ++ [.data []])
        (Feed.feed (onBodyUntilClose conf) (growBody conf w) es).1 := by
  have h := Feed.feed_history (onBodyUntilClose conf)
    (P := fun us w' => Holds (bs ++ recvBytes us) w' ∧ w'.cur.last < w'.cur.end_)
    (Q := fun us t => t.Holds (bs ++ recvBytes us) ∧
      ∀ w', t = .exit .done w' → ∃ before, us = before ++ [.data []])
    ?_ (s := growBody conf w) [] ?_ es
  · simpa only [List.nil_append] using h
  · intro us s e hs
    have h := onBodyUntilClose_holds hconf hs.1 e hs.2
    rw [List.append_assoc, ← recvBytes_append] at h
    revert h
    cases onBodyUntilClose conf s e with
    | inl w' => exact id
    | inr t => exact fun h => ⟨h.1, fun w' ht => ⟨us, by rw [h.2 w' ht]⟩⟩
  · have hnil : bs ++ recvBytes [] = bs := List.append_nil bs
    obtain ⟨w', h, hw', hroom⟩ | ⟨x, h, hx⟩ := growBody_room hconf hw
    · rw [h, hnil]
      exact ⟨hw', hroom⟩
    · rw [h]
      exact ⟨BodyEnd.holds_exit hx, fun _ h => absurd (BodyEnd.exit.inj h).1 hx⟩

/-- A buffer for a body of `n` bytes starts with the unread ones, and has space for the
    rest. -/
theorem bodyBufOf_holds {h h' : Heap} {n : Nat} {b : BodyBuf} (hk : h.headerBuf < h.bufs.length)
    (hb : (h.buf h.headerBuf).Valid) (hcreate : bodyBufOf h n = .ok (some (b, h')))
    (errno : Errno) :
    Holds (h.buf h.headerBuf).unread (receivingOf b h' errno) ∧
      n - (h.buf h.headerBuf).unread.length ≤ b.end_ - b.last := by
  have hw := holds_of_valid hk hb errno
  have hlen : (h.buf h.headerBuf).unread.length = (h.buf h.headerBuf).last - (h.buf h.headerBuf).pos :=
    hw.length
  have hpos := hb.pos_le
  have hlast := hb.last_le
  unfold bodyBufOf at hcreate
  dsimp only at hcreate
  split at hcreate
  · obtain ⟨-, -, rfl, -⟩ := Heap.bodyCreate_some hcreate
    refine ⟨holds_bodyCreate hcreate errno ?_, le_refl _⟩
    show (((h.buf h.headerBuf).unread.length : Nat) : Int) - (0 : Nat) = _
    simp [Buf.unread]
  · cases hcreate
    refine ⟨hw, ?_⟩
    dsimp only [Heap.unreadBody]
    omega

/-- How the loop for a body of `n` bytes starts with the unread bytes `bs`. -/
def StartsWith (n : Nat) (bs : List Byte) : Receiving ⊕ BodyEnd → Prop :=
  Sum.elim (fun w => Holds bs w ∧ bs.length < n ∧ n - bs.length ≤ w.cur.end_ - w.cur.last)
    (fun t => t.Holds bs ∧ ∀ w, t = .exit .done w → n ≤ bs.length)

/-- The copy into a new block fits: the block has the length of the body, which is larger than
    the buffer the bytes come from. -/
theorem bodyBufOf_ne_error {h : Heap} {n : Nat} (hk : h.headerBuf < h.bufs.length)
    (hb : (h.buf h.headerBuf).Valid) (s : Stop) : bodyBufOf h n ≠ .error s := by
  intro hs
  unfold bodyBufOf at hs
  dsimp only at hs
  split at hs
  · have hsmall : n < (h.buf h.headerBuf).unread.length := Heap.bodyCreate_error hs
    have hlen : (h.buf h.headerBuf).unread.length
        = (h.buf h.headerBuf).last - (h.buf h.headerBuf).pos :=
      (holds_of_valid hk hb .none).length
    have hlast := hb.last_le
    omega
  · cases hs

/-- There is a buffer for a body whose length `buf_create` accepts. -/
theorem bodyBufOf_granted {h : Heap} {n : Nat} (hk : h.headerBuf < h.bufs.length)
    (hb : (h.buf h.headerBuf).Valid) (hn : ¬ BufRefused n) :
    ∃ b h', bodyBufOf h n = .ok (some (b, h')) := by
  rcases hcreate : bodyBufOf h n with s | _ | ⟨b, h'⟩
  · exact absurd hcreate (bodyBufOf_ne_error hk hb s)
  · unfold bodyBufOf at hcreate
    dsimp only at hcreate
    split at hcreate
    · exact absurd (Heap.bodyCreate_eq_none.mp hcreate) hn
    · cases hcreate
  · exact ⟨b, h', rfl⟩

theorem startOfLength_holds {h : Heap} {n : Nat} (hk : h.headerBuf < h.bufs.length)
    (hb : (h.buf h.headerBuf).Valid) (errno : Errno) :
    StartsWith n (h.buf h.headerBuf).unread (startOfLength n h errno) := by
  unfold startOfLength
  rcases hcreate : bodyBufOf h n with s | _ | ⟨b, h'⟩
  · exact absurd hcreate (bodyBufOf_ne_error hk hb s)
  · exact ⟨trivial, fun _ h => by cases h⟩
  · obtain ⟨hw, hroom⟩ := bodyBufOf_holds hk hb hcreate errno
    exact checkBody_holds hw hroom

/-- The states and the end of the loop for a body of `n` bytes. -/
theorem ofLength_history {n : Nat} {s : Receiving ⊕ BodyEnd} (hs : StartsWith n bs s)
    (es : List RecvEvent) :
    ∃ used, es = used ++ (Feed.feed (onBodyOfLength n) s es).2 ∧
      StartsWith n (bs ++ recvBytes used) (Feed.feed (onBodyOfLength n) s es).1 := by
  have h := Feed.feed_history (onBodyOfLength n)
    (P := fun us w' => Holds (bs ++ recvBytes us) w' ∧ (bs ++ recvBytes us).length < n ∧
      n - (bs ++ recvBytes us).length ≤ w'.cur.end_ - w'.cur.last)
    (Q := fun us t => t.Holds (bs ++ recvBytes us) ∧
      ∀ w', t = .exit .done w' → n ≤ (bs ++ recvBytes us).length)
    ?_ (s := s) [] ?_ es
  · simp only [List.nil_append] at h
    exact h
  · intro us s e hs
    have h := onBodyOfLength_holds hs.1 e hs.2.1 hs.2.2
    rwa [List.append_assoc, ← recvBytes_append] at h
  · have hnil : bs ++ recvBytes [] = bs := List.append_nil bs
    rw [hnil]
    exact hs

end Loops

/-! ## The function -/

/-- What `http_process_content_body` does to the bytes of a body. -/
structure ReceivesBody (conf : Conf) (phase : Phase) (contentLen : Int) (r : HttpRequest)
    (io : Io) : Prop where
  /-- No access outside a block, and no failed assertion. -/
  safe : ∀ s, httpProcessContentBody conf phase contentLen r io = .stop s → s = .misfit
  /-- Each `recv` of the loop is asked for at least one byte. -/
  space : (0 < contentLen → contentLen ≤ conf.maxContentLen) → ∀ es w rest,
    bodyLoop conf contentLen r.toHeap io.errno es = (.inl w, rest) → w.cur.last < w.cur.end_
  ofLength : 0 < contentLen → ∀ r' io',
    httpProcessContentBody conf phase contentLen r io = .ret (true, r', io') →
    ∃ used b, io.recvs = used ++ io'.recvs ∧ (r'.body phase).content = some b ∧
      (r'.body phase).contentLen = contentLen ∧ contentLen ≤ (r'.toHeap.contents b).length ∧
      (r'.toHeap.contents b).take contentLen.toNat
        = ((r.buf r.headerBuf).unread ++ recvBytes used).take contentLen.toNat
  untilClose : contentLen < 0 → ∀ r' io',
    httpProcessContentBody conf phase contentLen r io = .ret (true, r', io') →
    ∃ used b, io.recvs = used ++ .data [] :: io'.recvs ∧ (r'.body phase).content = some b ∧
      r'.toHeap.contents b = (r.buf r.headerBuf).unread ++ recvBytes used ∧
      (r'.body phase).contentLen = ((r.buf r.headerBuf).unread ++ recvBytes used).length

@[simp] theorem HttpRequest.setBody_body (r : HttpRequest) (p : Phase) (b : ContentBody) :
    (r.setBody p b).body p = b := by cases p <;> rfl

section Function

variable {conf : Conf} {phase : Phase} {n : Int} {r : HttpRequest} {io : Io}

/-- A body without a declared length is left to its loop. -/
theorem httpProcessContentBody_untilClose (hstate : r.state = .headerLine)
    (hhead : r.method ≠ .head) (hn : n < 0) :
    httpProcessContentBody conf phase n r io
      = bodyUntilClose conf phase { r with state := .contentBody } io := by
  simp only [httpProcessContentBody, hstate, hhead, hn, ne_eq, not_true_eq_false, if_false, if_true]

/-- A body of a declared length is left to its loop, unless it is empty or too large. -/
theorem httpProcessContentBody_ofLength (hstate : r.state = .headerLine)
    (hhead : r.method ≠ .head) (hn : 0 < n) (hmax : n ≤ conf.maxContentLen) :
    httpProcessContentBody conf phase n r io
      = bodyOfLength phase n.toNat { r with state := .contentBody } io := by
  have h₁ : ¬ n < 0 := by omega
  have h₂ : n ≠ 0 := by omega
  have h₃ : ¬ n > conf.maxContentLen := by omega
  simp only [httpProcessContentBody, hstate, hhead, h₁, h₂, h₃, ne_eq, not_true_eq_false, if_false]

theorem httpProcessContentBody_empty (hstate : r.state = .headerLine) (hhead : r.method ≠ .head) :
    httpProcessContentBody conf phase 0 r io
      = .ret (true, { r with state := .contentBody }, io) := by
  simp only [httpProcessContentBody, hstate, hhead, ne_eq, not_true_eq_false, if_false]
  rfl

theorem httpProcessContentBody_tooLarge (hstate : r.state = .headerLine)
    (hhead : r.method ≠ .head) (hn : 0 < n) (hmax : conf.maxContentLen < n) :
    httpProcessContentBody conf phase n r io
      = .ret (false, { r with state := .contentBody, status := HTTP_STATUS_BAD_REQUEST }, io) := by
  have h₁ : ¬ n < 0 := by omega
  have h₂ : n ≠ 0 := by omega
  have h₃ : n > conf.maxContentLen := hmax
  simp only [httpProcessContentBody, hstate, hhead, h₁, h₂, h₃, ne_eq, not_true_eq_false, if_false,
    if_true]

theorem bodyUntilClose_bytes (hconf : conf.GrowingBodies) (hk : r.headerBuf < r.bufs.length)
    (hbuf : (r.buf r.headerBuf).Valid) :
    (∀ s, bodyUntilClose conf phase r io = .stop s → s = .misfit) ∧
    ∀ r' io', bodyUntilClose conf phase r io = .ret (true, r', io') →
      ∃ used b, io.recvs = used ++ .data [] :: io'.recvs ∧ (r'.body phase).content = some b ∧
        r'.toHeap.contents b = (r.buf r.headerBuf).unread ++ recvBytes used ∧
        (r'.body phase).contentLen = ((r.buf r.headerBuf).unread ++ recvBytes used).length := by
  have h : ∃ used, _ = used ++ (untilCloseLoop conf r.toHeap io.errno io.recvs).2 ∧
      Sum.elim _ _ (untilCloseLoop conf r.toHeap io.errno io.recvs).1 :=
    untilClose_history hconf (holds_of_valid hk hbuf io.errno) io.recvs
  unfold bodyUntilClose
  generalize untilCloseLoop conf r.toHeap io.errno io.recvs = out at h ⊢
  obtain ⟨used, hes, hend⟩ := h
  obtain ⟨w | ⟨e, w⟩ | s, rest⟩ := out
  · exact ⟨fun _ h => by (cases h), fun _ _ h => by (cases h)⟩
  · refine ⟨fun _ h => by (cases h), fun r' io' h => ?_⟩
    simp only [Outcome.ret.injEq, Prod.mk.injEq, decide_eq_true_eq] at h
    obtain ⟨rfl, rfl, rfl⟩ := h
    obtain ⟨hw, hclose⟩ : Holds _ w ∧ _ := hend
    obtain ⟨before, rfl⟩ := hclose w rfl
    rw [recvBytes_append, recvBytes_data, List.append_nil] at hw
    refine ⟨before, w.cur, ?_, ?_, hw.contents, ?_⟩
    · rw [hes, List.append_assoc]
      rfl
    · cases phase <;> rfl
    · rw [← hw.len]
      cases phase <;> rfl
  · refine ⟨fun s' h => ?_, fun _ _ h => by cases h⟩
    cases h
    exact hend.1

theorem bodyOfLength_bytes {n : Nat} (hfd : (r.body phase).contentFd < 0)
    (hk : r.headerBuf < r.bufs.length) (hbuf : (r.buf r.headerBuf).Valid) :
    (∀ s, bodyOfLength phase n r io = .stop s → s = .misfit) ∧
    ∀ r' io', bodyOfLength phase n r io = .ret (true, r', io') →
      ∃ used b, io.recvs = used ++ io'.recvs ∧ (r'.body phase).content = some b ∧
        (r'.body phase).contentLen = n ∧
        r'.toHeap.contents b = (r.buf r.headerBuf).unread ++ recvBytes used ∧
        n ≤ ((r.buf r.headerBuf).unread ++ recvBytes used).length := by
  have h : ∃ used, _ = used ++ (ofLengthLoop n r.toHeap io.errno io.recvs).2 ∧
      StartsWith n _ (ofLengthLoop n r.toHeap io.errno io.recvs).1 :=
    ofLength_history (startOfLength_holds hk hbuf io.errno) io.recvs
  unfold bodyOfLength
  generalize ofLengthLoop n r.toHeap io.errno io.recvs = out at h ⊢
  obtain ⟨used, hes, hend⟩ := h
  obtain ⟨w | ⟨e, w⟩ | s, rest⟩ := out
  · exact ⟨fun _ h => by (cases h), fun _ _ h => by (cases h)⟩
  · dsimp only
    rw [if_neg (by omega)]
    refine ⟨fun _ h => by (cases h), fun r' io' h => ?_⟩
    simp only [Outcome.ret.injEq, Prod.mk.injEq, decide_eq_true_eq] at h
    obtain ⟨rfl, rfl, rfl⟩ := h
    obtain ⟨hw', hlen⟩ : Holds _ w ∧ _ := hend
    refine ⟨used, w.cur, hes, ?_, ?_, hw'.contents, hlen w rfl⟩ <;> cases phase <;> rfl
  · refine ⟨fun s' h => ?_, fun _ _ h => by cases h⟩
    cases h
    exact hend.1

/-- The bytes of a body are the next bytes of the stream. -/
theorem httpProcessContentBody_bytes (hconf : conf.GrowingBodies) (hstate : r.state = .headerLine)
    (hhead : r.method ≠ .head) (hfd : (r.body phase).contentFd < 0)
    (hk : r.headerBuf < r.bufs.length) (hbuf : (r.buf r.headerBuf).Valid) :
    ReceivesBody conf phase n r io := by
  have hmax := hconf.max_le
  constructor
  · intro s h
    -- by the length: until close, no body, a declared length
    rcases Int.lt_trichotomy n 0 with hn | rfl | hn
    · rw [httpProcessContentBody_untilClose hstate hhead hn] at h
      exact (bodyUntilClose_bytes (r := { r with state := .contentBody }) hconf hk hbuf).1 s h
    · rw [httpProcessContentBody_empty hstate hhead] at h
      cases h
    · by_cases hle : n ≤ conf.maxContentLen
      · rw [httpProcessContentBody_ofLength hstate hhead hn hle] at h
        have hfd' : (HttpRequest.body { r with state := .contentBody } phase).contentFd < 0 := by
          cases phase <;> exact hfd
        exact (bodyOfLength_bytes hfd' hk hbuf).1 s h
      · rw [httpProcessContentBody_tooLarge hstate hhead hn (by omega)] at h
        cases h
  · intro hle es w rest h
    unfold bodyLoop at h
    split at h
    · obtain ⟨used, -, hend⟩ :=
        untilClose_history hconf (holds_of_valid hk hbuf io.errno) es
      rw [show Feed.feed _ _ es = _ from h] at hend
      exact hend.2
    -- a blocked loop is one that has not got its length
    · obtain ⟨used, -, hend⟩ := ofLength_history (startOfLength_holds hk hbuf io.errno) es
      rw [show Feed.feed _ _ es = _ from h] at hend
      obtain ⟨-, hlt, hroom⟩ : Holds _ w ∧ _ := hend
      omega
  · intro hn r' io' h
    by_cases hle : n ≤ conf.maxContentLen
    · rw [httpProcessContentBody_ofLength hstate hhead hn hle] at h
      have hfd' : (HttpRequest.body { r with state := .contentBody } phase).contentFd < 0 := by
        cases phase <;> exact hfd
      obtain ⟨used, b, hes, hb, hlen, hbytes, hle'⟩ :=
        (bodyOfLength_bytes hfd' hk hbuf).2 r' io' h
      refine ⟨used, b, hes, hb, by omega, ?_, by rw [hbytes]⟩
      rw [hbytes]
      dsimp only at hle' ⊢
      omega
    · rw [httpProcessContentBody_tooLarge hstate hhead hn (by omega)] at h
      cases h
  · intro hn r' io' h
    rw [httpProcessContentBody_untilClose hstate hhead hn] at h
    exact (bodyUntilClose_bytes (r := { r with state := .contentBody }) hconf hk hbuf).2 r' io' h

/-- A body of five bytes, two of them in the header buffer, which has no space for it. -/
theorem httpProcessContentBody_bytes_five :
    ReceivesBody exampleConf .request 5
      { state := .headerLine, bufs := [⟨bytes "ab" ++ [NUL, NUL], 0, 2, 3⟩] }
      { recvs := [.data (bytes "cd"), .data (bytes "e")] } :=
  httpProcessContentBody_bytes ⟨by decide, by decide, by decide⟩ rfl (by decide) (by decide)
    (by decide) ⟨by decide, by decide, by decide, by decide⟩

end Function

end XwpServer
