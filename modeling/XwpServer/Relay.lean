/-
  XwpServer.Relay

  The body of a backend's reply on its way to the client (`http_process_content_body` on the
  backend's socket, `connection_send_response` on the client's).

  However the backend's bytes are cut and whatever `send` takes of them, the client gets the
  head and behind it the bytes of the body in their order, as far as the connection lasts,
  and all of them if the response is sent (`reply_relayed`).  A reply that ends with the
  connection and has no body is not sent: `nwrite` is called for no bytes, and its assertion
  fails behind the head.
-/

import XwpServer.BodyBytes
import XwpServer.Framing

namespace XwpServer

open CString

/-! ## Writing -/

/-- What has been sent only grows, and together with what is left it stays the same bytes. -/
theorem onSend_prefix (w : Sending) (e : SendEvent) :
    Sum.elim (fun v => w.sent <+: v.sent ∧ v.sent ++ v.rest = w.sent ++ w.rest)
      (fun x => ∀ ok errno sent, x = .ret ok errno sent →
        w.sent <+: sent ∧ sent <+: w.sent ++ w.rest)
      (onSend w e) := by
  have hself : w.sent <+: w.sent ∧ w.sent <+: w.sent ++ w.rest :=
    ⟨List.prefix_rfl, List.prefix_append _ _⟩
  cases e with
  | error e =>
      rw [onSend]
      split
      · exact ⟨List.prefix_rfl, rfl⟩
      · intro ok errno sent h
        cases h
        exact hself
  | sent n =>
      rw [onSend]
      split
      · rintro _ _ _ ⟨⟩
      split
      · split
        · exact ⟨List.prefix_rfl, rfl⟩
        · intro ok errno sent h
          cases h
          exact hself
      have hparts : (w.sent ++ w.rest.take n) ++ w.rest.drop n = w.sent ++ w.rest := by
        rw [List.append_assoc, List.take_append_drop]
      split
      · intro ok errno sent h
        cases h
        exact ⟨List.prefix_append _ _, hparts ▸ List.prefix_append _ _⟩
      · exact ⟨List.prefix_append _ _, hparts⟩

/-- `nwrite` sends a front of its bytes, and all of them if it returns 1. -/
theorem nwrite_prefix {h : Heap} {io io' : Io} {bs : List Byte} {ok : Bool}
    (hw : nwrite h io bs = .ret (ok, io')) :
    bs ≠ [] ∧ ∃ out, io'.sent = io.sent ++ out ∧ out <+: bs ∧ (ok = true → out = bs) := by
  have hend := Feed.feed_invariant onSend
    (P := fun v => io.sent <+: v.sent ∧ v.sent ++ v.rest = io.sent ++ bs)
    (Q := fun x => ∀ ok errno sent, x = .ret ok errno sent →
      io.sent <+: sent ∧ sent <+: io.sent ++ bs)
    (fun w e hw => by
      have hstep := onSend_prefix w e
      cases hon : onSend w e with
      | inl v =>
          rw [hon] at hstep
          exact ⟨hw.1.trans hstep.1, hstep.2.trans hw.2⟩
      | inr x =>
          rw [hon] at hstep
          intro ok errno sent h
          obtain ⟨hgrown, hfront⟩ := hstep ok errno sent h
          exact ⟨hw.1.trans hgrown, hw.2 ▸ hfront⟩)
    (s := .inl ⟨bs, io.errno, io.sent⟩) ⟨List.prefix_rfl, rfl⟩ io.sends
  have hall : ok = true → io'.sent = io.sent ++ bs := by
    rintro rfl
    exact nwrite_sent hw
  unfold nwrite at hw
  split at hw
  · cases hw
  next hne =>
  refine ⟨hne, ?_⟩
  split at hw
  · cases hw
  · cases hw
  next okSend errno sent sends hfeed =>
    cases hw
    rw [hfeed] at hend
    obtain ⟨⟨out, rfl⟩, hfront⟩ := hend ok errno _ rfl
    refine ⟨out, rfl, ?_, fun hok => ?_⟩
    · exact (List.prefix_append_right_inj _).mp hfront
    · exact List.append_cancel_left (hall hok)

/-! ## The body that was read -/

/-- The body of a reply in the bytes behind its head; `n` is the declared length, and
    negative without one. -/
def replyBytes (n : Int) (behind : List Byte) : List Byte :=
  if n < 0 then behind else behind.take n.toNat

theorem contentBytes_of_contents {h : Heap} {b : BodyBuf} {n : Nat}
    (hn : n ≤ (h.contents b).length) : contentBytes h b n = .ok ((h.contents b).take n) := by
  rw [Heap.contents, List.length_take] at hn
  have hmem : ¬ ((h.buf b.block).mem.drop b.pos).length < n := by omega
  rw [contentBytes, if_neg hmem, Heap.contents, List.take_take, Nat.min_eq_left (by omega)]

theorem toSizeT_of_small {n : Int} (h0 : 0 ≤ n) (hn : n < 2 ^ 31) : toSizeT n = n.toNat := by
  rw [toSizeT, Int.emod_eq_of_lt h0 (by omega)]

/-- The body that is handed to `nwrite` is `body`; without content there is none. -/
def HoldsOut (r : HttpRequest) (body : List Byte) : Prop :=
  r.bodyOut.contentFd < 0 ∧
    ((r.bodyOut.content = none ∧ body = []) ∨ ∃ b, r.bodyOut.content = some b ∧
      contentBytes r.toHeap b (toSizeT r.bodyOut.contentLen) = .ok body)

section Read

variable {conf : Conf} {r r₁ : HttpRequest} {io io₁ : Io} {n : Int}

theorem bodyUntilClose_fd (h : bodyUntilClose conf .response r io = .ret (true, r₁, io₁)) :
    r₁.bodyOut.contentFd = r.bodyOut.contentFd := by
  obtain ⟨e, w, recvs, -, -, rfl, -⟩ := bodyUntilClose_ret h
  cases e <;> rfl

theorem bodyOfLength_fd {n : Nat} (h : bodyOfLength .response n r io = .ret (true, r₁, io₁)) :
    r₁.bodyOut.contentFd = r.bodyOut.contentFd := by
  obtain ⟨e, w, recvs, -, -, rfl, -⟩ := bodyOfLength_ret h
  cases e <;> rfl

/-- The buffers of a body stay small enough for its length. -/
theorem bodyUntilClose_small (hconf : conf.GrowingBodies) (hk : r.headerBuf < r.bufs.length)
    (hbuf : (r.buf r.headerBuf).Valid)
    (h : bodyUntilClose conf .response r io = .ret (true, r₁, io₁)) :
    r₁.bodyOut.contentLen < 2 ^ 31 := by
  obtain ⟨e, w, recvs, hfeed, hok, rfl, -⟩ := bodyUntilClose_ret h
  obtain ⟨used, -, hend⟩ := untilClose_history hconf (holds_of_valid hk hbuf io.errno) io.recvs
  rw [show Feed.feed _ _ io.recvs = _ from hfeed, Sum.elim_inr] at hend
  obtain rfl : e = .done := by simpa using hok.symm
  have hw : Holds ((r.buf r.headerBuf).unread ++ recvBytes used) w := hend.1
  show w.len < 2 ^ 31
  have hlen := hw.length
  have hlast := hw.last_le
  have hend := hw.end_lt
  rw [hw.len, hlen]
  omega

/-- A body that was read is held for sending: the bytes behind the head, up to the end of the
    connection or to the declared length. -/
theorem replyBody_held (hconf : conf.GrowingBodies) (hstate : r.state = .headerLine)
    (hhead : r.method ≠ .head) (hfd : r.bodyOut.contentFd < 0) (hnone : r.bodyOut.content = none)
    (hk : r.headerBuf < r.bufs.length) (hbuf : (r.buf r.headerBuf).Valid)
    (hread : httpProcessContentBody conf .response n r io = .ret (true, r₁, io₁)) :
    ∃ used, io.recvs = used ++ io₁.recvs ∧
      (n < 0 → ∃ before, used = before ++ [.data []]) ∧
      n ≤ ((r.buf r.headerBuf).unread ++ recvBytes used).length ∧
      HoldsOut r₁ (replyBytes n ((r.buf r.headerBuf).unread ++ recvBytes used)) ∧
      (n ≠ 0 → r₁.bodyOut.content ≠ none) := by
  have hmax := hconf.max_le
  -- by the length: until the connection ends, no body, a declared length
  rcases Int.lt_trichotomy n 0 with hn | rfl | hn
  · rw [httpProcessContentBody_untilClose hstate hhead hn] at hread
    obtain ⟨used, b, hes, hb, hbytes, hlen⟩ :=
      (bodyUntilClose_bytes (r := { r with state := .contentBody }) hconf hk hbuf).2 r₁ io₁ hread
    have hall : recvBytes (used ++ [.data []]) = recvBytes used := by
      rw [recvBytes_append, recvBytes_data, List.append_nil]
    refine ⟨used ++ [.data []], by rw [hes, List.append_assoc]; rfl, fun _ => ⟨used, rfl⟩, by omega,
      ⟨?_, .inr ⟨b, hb, ?_⟩⟩, fun _ => by rw [show r₁.bodyOut.content = some b from hb]; nofun⟩
    · rw [bodyUntilClose_fd hread]
      exact hfd
    · have hsmall :=
        bodyUntilClose_small (r := { r with state := .contentBody }) hconf hk hbuf hread
      have hlen : r₁.bodyOut.contentLen = _ := hlen
      have hsize : toSizeT r₁.bodyOut.contentLen = (r₁.toHeap.contents b).length := by
        rw [toSizeT_of_small (by omega) hsmall, hlen, Int.toNat_natCast, hbytes]
      rw [hsize, contentBytes_of_contents (Nat.le_refl _), List.take_length, hbytes, hall,
        replyBytes, if_pos hn]
  · rw [httpProcessContentBody_empty hstate hhead] at hread
    cases hread
    exact ⟨[], rfl, fun h => absurd h (Int.lt_irrefl 0), Int.natCast_nonneg _,
      ⟨hfd, .inl ⟨hnone, rfl⟩⟩, fun h => absurd rfl h⟩
  · by_cases hle : n ≤ conf.maxContentLen
    · rw [httpProcessContentBody_ofLength hstate hhead hn hle] at hread
      have hfd' : (HttpRequest.body { r with state := .contentBody } .response).contentFd < 0 := hfd
      obtain ⟨used, b, hes, hb, hlen, hbytes, hfull⟩ :=
        (bodyOfLength_bytes hfd' hk hbuf).2 r₁ io₁ hread
      have hlen : r₁.bodyOut.contentLen = n.toNat := hlen
      refine ⟨used, hes, fun h => by omega, ?_, ⟨?_, .inr ⟨b, hb, ?_⟩⟩,
        fun _ => by rw [show r₁.bodyOut.content = some b from hb]; nofun⟩
      · exact Int.toNat_le.mp hfull
      · rw [bodyOfLength_fd hread]
        exact hfd
      · have hsize : toSizeT r₁.bodyOut.contentLen = n.toNat := by
          rw [hlen, toSizeT_of_small (by omega) (by omega), Int.toNat_natCast]
        rw [← hbytes] at hfull
        rw [hsize, contentBytes_of_contents hfull, hbytes, replyBytes, if_neg (by omega)]
    · rw [httpProcessContentBody_tooLarge hstate hhead hn (by omega)] at hread
      cases hread

end Read

/-! ## The way of a body -/

/-- What reaches the client is a front of `all`, which is all of it if the call returns 1. -/
def Relays (io io' : Io) (ok : Bool) (all : List Byte) : Prop :=
  ∃ out, io'.sent = io.sent ++ out ∧ out <+: all ∧ (ok = true → out = all)

theorem sendBody_relays {r r' : HttpRequest} {io io' : Io} {file : SentFile} {body : List Byte}
    {ok : Bool} (hbody : HoldsOut r body) (h : sendBody r io file = .ret (ok, r', io')) :
    Relays io io' ok body ∧ (r.bodyOut.content ≠ none → body ≠ []) := by
  obtain ⟨hfd, hcontent⟩ := hbody
  have hnofd : ¬ 0 ≤ r.bodyOut.contentFd := by omega
  simp only [sendBody, hnofd, false_and, if_false] at h
  rcases hcontent with ⟨hnone, rfl⟩ | ⟨b, hb, hbytes⟩
  · simp only [hnone] at h
    cases h
    exact ⟨⟨[], (List.append_nil _).symm, List.prefix_rfl, fun _ => rfl⟩,
      fun hne => absurd hnone hne⟩
  · simp only [hb, hbytes] at h
    obtain ⟨⟨okBody, io₁⟩, hw, hret⟩ := Outcome.bind_eq_ret.mp h
    cases hret
    obtain ⟨hne, hout⟩ := nwrite_prefix hw
    exact ⟨hout, fun _ => hne⟩

/-- A response that is begun: its head, and behind it the body that is held. -/
theorem connectionSendResponse_relays {r r' : HttpRequest} {io io' : Io} {file : SentFile}
    {body : List Byte} {ok : Bool} (hbody : HoldsOut r body)
    (h : connectionSendResponse r io file = .ret (ok, r', io')) :
    ∃ head, connectionResponseHead r = .ok head ∧ Relays io io' ok (head ++ body) ∧
      (ok = true → r.bodyOut.content ≠ none → body ≠ []) := by
  unfold connectionSendResponse at h
  split at h
  · cases h
  next head hhead =>
  obtain ⟨⟨okHead, io₁⟩, hw, hrest⟩ := Outcome.bind_eq_ret.mp h
  obtain ⟨-, out, hsent, hfront, hall⟩ := nwrite_prefix hw
  refine ⟨head, hhead, ?_⟩
  cases okHead with
  | false =>
      cases hrest
      exact ⟨⟨out, hsent, hfront.trans (List.prefix_append _ _), fun h => by cases h⟩,
        fun h => by cases h⟩
  | true =>
      obtain rfl := hall rfl
      -- the body is not touched by the headers the server sets
      have hheld : HoldsOut
          { r with headersOut := { r.headersOut with headers := responseTable r } } body := hbody
      obtain ⟨⟨tail, hsent', hfront', hall'⟩, hne⟩ := sendBody_relays hheld hrest
      refine ⟨⟨out ++ tail, ?_, ?_, fun hok => ?_⟩, fun _ => hne⟩
      · rw [hsent', hsent, List.append_assoc]
      · exact (List.prefix_append_right_inj _).mpr hfront'
      · rw [hall' hok]

/-- The body of a reply reaches the client as it came from the backend: behind the head, in
    its order, and if the response is sent, up to its last byte. -/
theorem reply_relayed {conf : Conf} {r r₁ : HttpRequest} {io io₁ : Io} {n : Int}
    (hconf : conf.GrowingBodies) (hstate : r.state = .headerLine) (hhead : r.method ≠ .head)
    (hfd : r.bodyOut.contentFd < 0) (hnone : r.bodyOut.content = none)
    (hk : r.headerBuf < r.bufs.length) (hbuf : (r.buf r.headerBuf).Valid)
    (hread : httpProcessContentBody conf .response n r io = .ret (true, r₁, io₁)) :
    ∃ used, io.recvs = used ++ io₁.recvs ∧
      (n < 0 → ∃ before, used = before ++ [.data []]) ∧
      n ≤ ((r.buf r.headerBuf).unread ++ recvBytes used).length ∧
      ∀ (client client' : Io) (file : SentFile) (ok : Bool) (r₂ : HttpRequest),
        connectionSendResponse r₁ client file = .ret (ok, r₂, client') →
        ∃ head, connectionResponseHead r₁ = .ok head ∧
          Relays client client' ok
            (head ++ replyBytes n ((r.buf r.headerBuf).unread ++ recvBytes used)) ∧
          (ok = true → n ≠ 0 →
            replyBytes n ((r.buf r.headerBuf).unread ++ recvBytes used) ≠ []) := by
  obtain ⟨used, hes, hclose, hle, hheld, hsome⟩ :=
    replyBody_held hconf hstate hhead hfd hnone hk hbuf hread
  refine ⟨used, hes, hclose, hle, fun client client' file ok r₂ hsend => ?_⟩
  obtain ⟨head, hhead, hrelays, hne⟩ := connectionSendResponse_relays hheld hsend
  exact ⟨head, hhead, hrelays, fun hok hn => hne hok (hsome hn)⟩

theorem reply_relayed_close :
    ∃ r₁ io₁, httpProcessContentBody exampleConf .response (-1)
        { state := .headerLine, bufs := [⟨bytes "ab" ++ [NUL, NUL], 0, 2, 3⟩] }
        { recvs := [.data (bytes "c"), .data []] } = .ret (true, r₁, io₁) ∧
      ∃ used, [.data (bytes "c"), .data []] = used ++ io₁.recvs ∧
        ((-1 : Int) < 0 → ∃ before, used = before ++ [.data []]) ∧
        -1 ≤ ((bytes "ab" ++ recvBytes used).length : Int) ∧
        ∀ (client client' : Io) (file : SentFile) (ok : Bool) (r₂ : HttpRequest),
          connectionSendResponse r₁ client file = .ret (ok, r₂, client') →
          ∃ head, connectionResponseHead r₁ = .ok head ∧
            Relays client client' ok (head ++ replyBytes (-1) (bytes "ab" ++ recvBytes used)) ∧
            (ok = true → (-1 : Int) ≠ 0 → replyBytes (-1) (bytes "ab" ++ recvBytes used) ≠ []) :=
  ⟨_, _, rfl, @reply_relayed exampleConf
    { state := .headerLine, bufs := [⟨bytes "ab" ++ [NUL, NUL], 0, 2, 3⟩] } _
    { recvs := [.data (bytes "c"), .data []] } _ (-1)
    ⟨by decide, by decide, by decide⟩ rfl (by decide) (by decide) rfl (by decide)
    ⟨by decide, by decide, by decide, by decide⟩ rfl⟩

end XwpServer
