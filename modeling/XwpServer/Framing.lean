/-
  XwpServer.Framing

  The bytes of a response and the length its head says (`connection_send_response`).

  The length comes from the server's own `Content-Length`, which takes the place of an
  entry only if that entry's name begins so, and the bytes come from one `sendfile`, from
  `nwrite`, or from nowhere.  A response is framed exactly if the handler's table leaves
  room for one such line and the bytes are as many as it says (`framed_iff`).
-/

import XwpServer.FailedExchange
import XwpServer.BackendHeaders
import XwpServer.StaticFile
import XwpServer.Lib.TableUpdate

namespace XwpServer

open CString FirstMatch

/-! ## `connection_send_response` -/

/-- A file behind its offset, and what `sendfile` returns for it; `none` is `-1`. -/
structure SentFile where
  rest : List Byte := []
  sendfile : Option Nat := none

/-- The conversion of an `int` to `size_t`. -/
def toSizeT (n : Int) : Nat := (n % 2 ^ 64).toNat

/-- The bytes `nwrite` is handed: `len` from `content->pos` on. -/
def contentBytes (h : Heap) (content : BodyBuf) (len : Nat) : Except Stop (List Byte) :=
  let mem := (h.buf content.block).mem.drop content.pos
  if mem.length < len then .error .fault else .ok (mem.take len)

/-- The end of `connection_send_response`: the body.  `sendfile` is called once, and the
    file is closed whatever it returns. -/
def sendBody (r : HttpRequest) (io : Io) (file : SentFile) : Outcome (Bool × HttpRequest × Io) :=
  let b := r.bodyOut
  if 0 ≤ b.contentFd ∧ b.content ≠ none then .stop .assert
  else if 0 ≤ b.contentFd then
    let r := { r with bodyOut := { b with contentFd := -1 } }
    match file.sendfile with
    | none => .ret (false, r, io)
    | some n =>
      if toSizeT b.contentLen < n ∨ file.rest.length < n then .stop .misfit
      else .ret (true, r, { io with sent := io.sent ++ file.rest.take n })
  else
    match b.content with
    | none => .ret (true, r, io)
    | some content =>
      match contentBytes r.toHeap content (toSizeT b.contentLen) with
      | .error s => .stop s
      | .ok bs => (nwrite r.toHeap io bs).bind fun (ok, io) => .ret (ok, r, io)

/-- `connection_send_response`. -/
def connectionSendResponse (r : HttpRequest) (io : Io) (file : SentFile) :
    Outcome (Bool × HttpRequest × Io) :=
  match connectionResponseHead r with
  | .error s => .stop s
  | .ok head =>
    let r := { r with headersOut := { r.headersOut with headers := responseTable r } }
    (nwrite r.toHeap io head).bind fun (ok, io) =>
      if ok then sendBody r io file else .ret (false, r, io)

/-! ## Framed responses -/

/-- The name is `Content-Length`, compared without case. -/
def isLength (name : List Byte) : Bool := strcasecmpEq name (bytes "Content-Length")

/-- The number a value begins with. -/
def saidLength (value : List Byte) : Nat := decVal (value.takeWhile isdigit)

/-- One head, whose lines are the entries of the table, with exactly one `Content-Length`,
    and as many bytes behind it as that line says. -/
def Framed (r : HttpRequest) (wire : List Byte) : Prop :=
  ∃ statusLine body name value, httpStatusLine r.status = .ok statusLine ∧
    ReadsAs wire (r.str r.versionStr.data ++ SP :: statusLine) (responseLines r) body ∧
    (responseLines r).filter (isLength ·.1) = [(name, value)] ∧ saidLength value = body.length

/-! ## When a response is framed -/

/-- The lines the handler has left in the table. -/
def handlerLines (r : HttpRequest) : List (List Byte × List Byte) :=
  r.headersOut.headers.map fun e => (r.str e.name.data, r.str e.value.data)

/-- The name begins with `Content-Length`, in this spelling. -/
def BeginsLength (name : List Byte) : Prop := bytes "Content-Length" <+: name

/-- The entry is the first whose name begins with that of one of the server's headers, and
    so gets the server's value. -/
def ServerValue (before : List (List Byte × List Byte)) (name : List Byte) : Prop :=
  ∃ k ∈ ["Connection", "Server", "Content-Length"], bytes k <+: name ∧
    ∀ l ∈ before, ¬ bytes k <+: l.1

/-- The one line that says a length is `l`. -/
structure OnlyLength (lines before : List (List Byte × List Byte)) (l : List Byte × List Byte)
    (after : List (List Byte × List Byte)) : Prop where
  lines : lines = before ++ l :: after
  is : isLength l.1 = true
  only : ∀ x ∈ before ++ after, isLength x.1 = false

/-- With the server's length put into the lines of the handler there is one line that says
    a length, and it says `n`. -/
inductive OneLength (lines : List (List Byte × List Byte)) (own n : Nat) : Prop
  /-- No line begins with the name, in any spelling, and the server adds its own. -/
  | added (hnone : ∀ l ∈ lines, isLength l.1 = false ∧ ¬ BeginsLength l.1) (hlen : own = n)
  /-- The one line is the first that begins with the name, and gets the server's value. -/
  | replaced {before l after} (hone : OnlyLength lines before l after)
      (hreach : BeginsLength l.1 ∧ ∀ x ∈ before, ¬ BeginsLength x.1) (hlen : own = n)
  /-- The server's value goes into another line that begins with the name. -/
  | kept {before l after} (hone : OnlyLength lines before l after)
      (hother : (∃ x ∈ before, BeginsLength x.1) ∨
        ¬ BeginsLength l.1 ∧ ∃ x ∈ after, BeginsLength x.1)
      (hlen : saidLength l.2 = n)

/-- The number of bytes behind the head: what `sendfile` has transferred, or the length of
    the content, if there is one. -/
def bodyLength (r : HttpRequest) (file : SentFile) : Nat :=
  if 0 ≤ r.bodyOut.contentFd then file.sendfile.getD 0
  else if r.bodyOut.content = none then 0
  else toSizeT r.bodyOut.contentLen

/-- Every entry of the handler makes one line, and the length is said once, as it is. -/
structure FramesBody (r : HttpRequest) (n : Nat) : Prop where
  version : LF ∉ r.str r.versionStr.data
  names : ∀ l ∈ handlerLines r, COLON ∉ l.1 ∧ LF ∉ l.1
  values : ∀ before l after, handlerLines r = before ++ l :: after →
    LF ∈ l.2 → ServerValue before l.1
  length : OneLength (handlerLines r) r.bodyOut.contentLen.toNat n

/-! ## The bytes that are sent -/

/-- What has been sent and what is left stay the same bytes; at the end nothing is left. -/
theorem onSend_keeps (w : Sending) (e : SendEvent) :
    Sum.elim (fun v => v.sent ++ v.rest = w.sent ++ w.rest)
      (fun x => ∀ errno sent, x = .ret true errno sent → sent = w.sent ++ w.rest)
      (onSend w e) := by
  cases e with
  | error e =>
      rw [onSend]
      split
      · rfl
      · rintro _ _ ⟨⟩
  | sent n =>
      rw [onSend]
      split
      · rintro _ _ ⟨⟩
      split
      · split
        · rfl
        · rintro _ _ ⟨⟩
      -- what is sent moves from the rest to the bytes that are out
      split
      · next hnil =>
        rintro _ _ ⟨⟩
        have hall := List.take_append_drop n w.rest
        rw [hnil, List.append_nil] at hall
        rw [hall]
      · show w.sent ++ w.rest.take n ++ w.rest.drop n = w.sent ++ w.rest
        rw [List.append_assoc, List.take_append_drop]

theorem nwrite_sent {h : Heap} {io io' : Io} {bs : List Byte}
    (hw : nwrite h io bs = .ret (true, io')) : io'.sent = io.sent ++ bs := by
  have hend := Feed.feed_invariant onSend (P := fun v => v.sent ++ v.rest = io.sent ++ bs)
    (Q := fun x => ∀ errno sent, x = .ret true errno sent → sent = io.sent ++ bs)
    (fun w e hw => hw ▸ onSend_keeps w e) (s := .inl ⟨bs, io.errno, io.sent⟩) rfl io.sends
  unfold nwrite at hw
  split at hw
  · cases hw
  split at hw
  · cases hw
  · cases hw
  next ok errno sent sends hfeed =>
    cases hw
    rw [hfeed] at hend
    exact hend errno sent rfl

theorem sendBody_sent {r r' : HttpRequest} {io io' : Io} {file : SentFile}
    (h : sendBody r io file = .ret (true, r', io')) :
    ∃ body, io'.sent = io.sent ++ body ∧ body.length = bodyLength r file := by
  simp only [sendBody] at h
  -- a file, no body, or the bytes of a buffer
  by_cases hboth : 0 ≤ r.bodyOut.contentFd ∧ r.bodyOut.content ≠ none
  · rw [if_pos hboth] at h
    cases h
  rw [if_neg hboth] at h
  split at h
  · next hfd =>
    rw [bodyLength, if_pos hfd]
    split at h
    · cases h
    next n hsend =>
    split at h
    · cases h
    next hle =>
    cases h
    refine ⟨_, rfl, ?_⟩
    rw [hsend, Option.getD_some, List.length_take]
    omega
  next hfd =>
  rw [bodyLength, if_neg hfd]
  split at h
  · next hnone =>
    cases h
    exact ⟨[], by simp, by rw [if_pos hnone]; rfl⟩
  next content hcontent =>
  rw [if_neg (by simp [hcontent])]
  split at h
  · cases h
  next bs hbs =>
  obtain ⟨⟨ok, io₁⟩, hw, hret⟩ := Outcome.bind_eq_ret.mp h
  cases hret
  refine ⟨bs, nwrite_sent hw, ?_⟩
  simp only [contentBytes] at hbs
  split at hbs
  · cases hbs
  next hle =>
  cases hbs
  rw [List.length_take]
  omega

/-- A response that is sent is its head, and as many bytes as the body has. -/
theorem connectionSendResponse_sent {r r' : HttpRequest} {io io' : Io} {file : SentFile}
    (h : connectionSendResponse r io file = .ret (true, r', io')) :
    ∃ head body, connectionResponseHead r = .ok head ∧ io'.sent = io.sent ++ (head ++ body) ∧
      body.length = bodyLength r file := by
  unfold connectionSendResponse at h
  split at h
  · cases h
  next head hhead =>
  obtain ⟨⟨ok, io₁⟩, hw, hbody⟩ := Outcome.bind_eq_ret.mp h
  cases ok with
  | false => cases hbody
  | true =>
  obtain ⟨body, hsent, hlen⟩ := sendBody_sent hbody
  refine ⟨head, body, hhead, ?_, hlen⟩
  rw [hsent, nwrite_sent hw, List.append_assoc]

/-! ## Reading a response -/

/-- However a framed response is read, it has one line that says a length, and a body of that
    length. -/
theorem Framed.of_reads {r : HttpRequest} {wire first body : List Byte}
    {lines : List (List Byte × List Byte)} (h : Framed r wire)
    (hreads : ReadsAs wire first lines body) :
    ∃ name value, lines.filter (isLength ·.1) = [(name, value)] ∧
      saidLength value = body.length := by
  obtain ⟨statusLine, body', name, value, -, hreads', hone, hsaid⟩ := h
  obtain ⟨-, rfl, rfl⟩ := hreads.unique hreads'
  exact ⟨name, value, hone, hsaid⟩

/-! ## The server's lines -/

/-- The three lines, and the length they say. -/
theorem serverLines_spec (r : HttpRequest) : ∃ c v w,
    (serverHeaders r).map r.textLine
      = [(bytes "Connection", c), (bytes "Server", v), (bytes "Content-Length", w)] ∧
    (LF ∉ c ∧ LF ∉ v ∧ LF ∉ w) ∧ saidLength w = r.bodyOut.contentLen.toNat := by
  have hb := serverHeaders_bytes r
  refine ⟨_, _, _, rfl, ⟨(hb _ (by simp [serverHeaders])).2, (hb _ (by simp [serverHeaders])).2,
    (hb _ (by simp [serverHeaders])).2⟩, ?_⟩
  dsimp only
  split
  · next hpos =>
    have hdigit := isdigit_of_mem_sprintfInt hpos
    show decVal (((sprintfInt r.bodyOut.contentLen).takeWhile (· != NUL)).takeWhile isdigit) = _
    -- digits are no zero bytes, so the whole number is read
    rw [takeWhile_sprintfInt hpos, List.takeWhile_eq_self_iff.mpr hdigit, decVal_sprintfInt hpos]
  · next hpos =>
    have hzero : r.bodyOut.contentLen.toNat = 0 := by omega
    rw [hzero]
    show saidLength ((bytes "0").takeWhile (· != NUL)) = 0
    decide

theorem httpHeaderSet_lines {h : Heap} (table : List Header) {name : Str} (value : Str)
    (hp : (h.nameKey name).Plain) :
    (httpHeaderSet h table name value).map (fun e => (h.str e.name.data, h.str e.value.data))
      = put List.isPrefixOf (table.map fun e => (h.str e.name.data, h.str e.value.data))
        (h.str name.data) (h.str value.data) := by
  induction table with
  | nil => rfl
  | cons e t ih =>
      have hcond : strncmpEq (h.str name.data) (h.str e.name.data) name.len
          = (h.str name.data).isPrefixOf (h.str e.name.data) := by
        rw [Bool.eq_iff_iff, List.isPrefixOf_iff_prefix]
        exact nameHits_iff hp (h.nameKey e.name)
      simp only [httpHeaderSet, List.map_cons, put, hcond]
      split
      · rfl
      · rw [List.map_cons, ih]

/-- The lines of a table into which the headers of a list are set one after the other. -/
theorem foldl_httpHeaderSet_lines (r : HttpRequest) (ps : List (Str × Str)) (table : List Header)
    (hps : ∀ p ∈ ps, (r.toHeap.nameKey p.1).Plain) :
    (ps.foldl (fun hs p => httpHeaderSet r.toHeap hs p.1 p.2) table).map
        (fun e => (r.str e.name.data, r.str e.value.data))
      = build List.isPrefixOf (table.map fun e => (r.str e.name.data, r.str e.value.data))
        (ps.map r.textLine) := by
  induction ps generalizing table with
  | nil => rfl
  | cons p ps ih =>
      rw [List.foldl_cons, ih _ fun q hq => hps q (by simp [hq]),
        httpHeaderSet_lines table p.2 (hps p (by simp)), List.map_cons, build_cons]
      rfl

theorem responseLines_build (r : HttpRequest) :
    responseLines r
      = build List.isPrefixOf (handlerLines r) ((serverHeaders r).map r.textLine) :=
  foldl_httpHeaderSet_lines r _ _ (serverHeaders_plain r)

/-- The handler's lines with the values the server has put in, and the server's lines that
    have not found a place among them. -/
theorem responseLines_eq_append (r : HttpRequest) :
    responseLines r = update List.isPrefixOf [] (handlerLines r) ((serverHeaders r).map r.textLine)
      ++ ((serverHeaders r).map r.textLine).filter fun p =>
        !((handlerLines r).map Prod.fst).any p.1.isPrefixOf := by
  have hsplit : build List.isPrefixOf (handlerLines r ++ []) ((serverHeaders r).map r.textLine) = _ :=
    build_append_left _ [] _
  rw [List.append_nil] at hsplit
  rw [responseLines_build, hsplit, build_of_miss, List.nil_append]
  rw [List.nil_append]
  apply List.Pairwise.filter
  obtain ⟨c, v, w, heq, -⟩ := serverLines_spec r
  rw [heq]
  simp only [List.pairwise_cons, List.mem_cons, List.not_mem_nil, or_false]
  refine ⟨?_, ?_, nofun, .nil⟩
  · rintro q (rfl | rfl) <;>
    · dsimp only
      decide
  · rintro q rfl
    dsimp only
    decide

/-! ## The lines of the response -/

theorem reaches_iff {before : List (List Byte × List Byte)} {name : List Byte}
    {p : List Byte × List Byte} :
    reaches List.isPrefixOf (before.map Prod.fst) name p = true ↔
      p.1 <+: name ∧ ∀ l ∈ before, ¬ p.1 <+: l.1 := by
  rw [reaches, Bool.and_eq_true, List.isPrefixOf_iff_prefix]
  simp

theorem reachesLength_iff {before : List (List Byte × List Byte)} {name w : List Byte} :
    reaches List.isPrefixOf (before.map Prod.fst) name (bytes "Content-Length", w) = true ↔
      BeginsLength name ∧ ∀ l ∈ before, ¬ BeginsLength l.1 := reaches_iff

theorem serverValue_iff (r : HttpRequest) {before : List (List Byte × List Byte)}
    {name : List Byte} : ServerValue before name ↔ ∃ p ∈ (serverHeaders r).map r.textLine,
      reaches List.isPrefixOf (before.map Prod.fst) name p = true := by
  obtain ⟨c, v, w, heq, -⟩ := serverLines_spec r
  simp only [heq, ServerValue, reaches_iff, List.mem_cons, List.not_mem_nil, or_false,
    exists_eq_or_imp, exists_eq_left]

/-- Every entry makes one line if those of the handler do, up to the values that are
    replaced. -/
theorem fieldLines_iff (r : HttpRequest) :
    (∀ l ∈ responseLines r, IsFieldLine l) ↔
      (∀ l ∈ handlerLines r, COLON ∉ l.1 ∧ LF ∉ l.1) ∧
        ∀ before l after, handlerLines r = before ++ l :: after → LF ∈ l.2 →
          ServerValue before l.1 := by
  obtain ⟨c, v, w, heq, ⟨hc, hv, hw⟩, -⟩ := serverLines_spec r
  have hserver : ∀ p ∈ (serverHeaders r).map r.textLine, LF ∉ p.2 := by
    rw [heq]
    simp [hc, hv, hw]
  rw [responseLines_eq_append]
  constructor
  · intro h
    have hold : ∀ before l after, handlerLines r = before ++ l :: after →
        IsFieldLine (l.1, lastValue List.isPrefixOf (before.map Prod.fst) l.1 l.2
          ((serverHeaders r).map r.textLine)) := fun before l after hsplit =>
      h _ (List.mem_append_left _ (mem_update.mpr ⟨before, l.2, after, hsplit, rfl⟩))
    refine ⟨fun l hl => ?_, fun before l after hsplit hlf => ?_⟩
    · obtain ⟨before, after, hsplit⟩ := List.append_of_mem hl
      exact (hold before l after hsplit).1
    · rw [serverValue_iff r]
      -- a value with a line feed is not the one that is printed
      rcases @lastValue_cases _ _ List.isPrefixOf (before.map Prod.fst) l.1 l.2
        ((serverHeaders r).map r.textLine) with ⟨-, hval⟩ | ⟨p, hp, hreach, -⟩
      · have hline := (hold before l after hsplit).2
        rw [hval] at hline
        exact absurd hlf hline
      · exact ⟨p, hp, hreach⟩
  · rintro ⟨hnames, hvalues⟩ l hl
    rcases List.mem_append.mp hl with hl | hl
    · obtain ⟨before, v', after, hsplit, hval⟩ := mem_update.mp hl
      rw [List.nil_append] at hval
      refine ⟨hnames (l.1, v') (hsplit ▸ by simp), ?_⟩
      rw [hval]
      rcases @lastValue_cases _ _ List.isPrefixOf (before.map Prod.fst) l.1 v'
        ((serverHeaders r).map r.textLine) with ⟨hno, hkept⟩ | ⟨p, hp, -, hput⟩
      · rw [hkept]
        intro hlf
        obtain ⟨p, hp, hreach⟩ := (serverValue_iff r).mp (hvalues before (l.1, v') after hsplit hlf)
        rw [hno p hp] at hreach
        cases hreach
      · rw [hput]
        exact hserver p hp
    · have hmem := (List.mem_filter.mp hl).1
      refine ⟨?_, hserver l hmem⟩
      rw [heq] at hmem
      simp only [List.mem_cons, List.not_mem_nil, or_false] at hmem
      rcases hmem with rfl | rfl | rfl <;>
      · dsimp only
        decide

/-- Neither `Connection` nor `Server` begins a name that says a length. -/
theorem not_prefix_of_isLength {k name : List Byte} (hname : isLength name = true)
    (hk : ¬ k.map tolower <+: (bytes "Content-Length").map tolower) : ¬ k <+: name := by
  rintro ⟨t, rfl⟩
  apply hk
  rw [isLength, strcasecmpEq, beq_iff_eq] at hname
  rw [← hname, List.map_append]
  exact List.prefix_append _ _

instance : DecidablePred BeginsLength := fun name =>
  inferInstanceAs (Decidable (bytes "Content-Length" <+: name))

/-- The value of a line that says a length is the server's, if the server reaches it. -/
theorem lastValue_length {before : List (List Byte × List Byte)} {name value c v w : List Byte}
    (hname : isLength name = true) :
    lastValue List.isPrefixOf (before.map Prod.fst) name value
        [(bytes "Connection", c), (bytes "Server", v), (bytes "Content-Length", w)]
      = if BeginsLength name ∧ ∀ x ∈ before, ¬ BeginsLength x.1 then w else value := by
  have hno : ∀ k x, ¬ k.map tolower <+: (bytes "Content-Length").map tolower →
      reaches List.isPrefixOf (before.map Prod.fst) name (k, x) = false := fun k x hk => by
    rw [Bool.eq_false_iff, Ne, reaches_iff]
    exact fun h => not_prefix_of_isLength hname hk h.1
  rw [lastValue_cons, lastValue_cons, lastValue_cons, hno _ c (by decide), hno _ v (by decide)]
  exact if_congr reachesLength_iff rfl rfl

/-- The one line of the handler that says a length, with the value it comes to have. -/
theorem update_isLength {lines : List (List Byte × List Byte)} {e : List Byte × List Byte}
    {c v w : List Byte} :
    (update List.isPrefixOf [] lines [(bytes "Connection", c), (bytes "Server", v),
        (bytes "Content-Length", w)]).filter (isLength ·.1) = [e] ↔
      ∃ before l after, OnlyLength lines before l after ∧ e.1 = l.1 ∧
        e.2 = if BeginsLength l.1 ∧ ∀ x ∈ before, ¬ BeginsLength x.1 then w else l.2 := by
  rw [filter_update_eq_singleton]
  constructor
  · rintro ⟨before, value, after, hsplit, his, honly, hval⟩
    refine ⟨before, (e.1, value), after, ⟨hsplit, his, honly⟩, rfl, ?_⟩
    rw [hval, List.nil_append, lastValue_length his]
  · rintro ⟨before, l, after, ⟨hsplit, his, honly⟩, hname, hval⟩
    refine ⟨before, l.2, after, ?_, ?_, honly, ?_⟩
    · rw [hsplit, hname]
    · rw [hname]
      exact his
    · rw [hval, List.nil_append, hname, lastValue_length his]

/-- The server's own length is behind the handler's lines if no name of them begins so. -/
theorem filter_isLength_fresh (r : HttpRequest) {c v w : List Byte}
    (heq : (serverHeaders r).map r.textLine
      = [(bytes "Connection", c), (bytes "Server", v), (bytes "Content-Length", w)]) :
    (((serverHeaders r).map r.textLine).filter fun p =>
        !((handlerLines r).map Prod.fst).any p.1.isPrefixOf).filter (isLength ·.1)
      = if ∀ l ∈ handlerLines r, ¬ BeginsLength l.1 then [(bytes "Content-Length", w)] else [] := by
  have hc : isLength (bytes "Connection") = false := by decide
  have hv : isLength (bytes "Server") = false := by decide
  have hl : isLength (bytes "Content-Length") = true := by decide
  rw [List.filter_comm, heq]
  simp only [List.filter_cons, hc, hv, hl, if_true, Bool.false_eq_true, if_false, List.filter_nil]
  refine if_congr ?_ rfl rfl
  simp [BeginsLength]

/-- The response says one length, and the bytes are as many, just if the handler's lines
    leave it so. -/
theorem oneLength_iff (r : HttpRequest) (n : Nat) :
    (∃ name value, (responseLines r).filter (isLength ·.1) = [(name, value)] ∧
        saidLength value = n) ↔
      OneLength (handlerLines r) r.bodyOut.contentLen.toNat n := by
  obtain ⟨c, v, w, heq, -, hw⟩ := serverLines_spec r
  rw [responseLines_eq_append, List.filter_append, filter_isLength_fresh r heq, heq]
  by_cases hb : ∀ l ∈ handlerLines r, ¬ BeginsLength l.1
  · -- the server's line is there, and must be the only one
    rw [if_pos hb]
    constructor
    · rintro ⟨name, value, hone, hsaid⟩
      obtain ⟨hnil, hlast⟩ := (List.append_eq_singleton_iff.mp hone).resolve_right fun h => by
        cases h.2
      obtain ⟨-, rfl⟩ := Prod.mk.inj (List.singleton_inj.mp hlast)
      rw [filter_update_eq_nil] at hnil
      exact .added (fun l hl => ⟨hnil l hl, hb l hl⟩) (hw.symm.trans hsaid)
    · rintro (⟨hno, hlen⟩ | ⟨hone, hreach, -⟩ | ⟨hone, hother, -⟩)
      · refine ⟨bytes "Content-Length", w, ?_, hw.trans hlen⟩
        rw [filter_update_eq_nil.mpr fun l hl => (hno l hl).1, List.nil_append]
      · exact absurd hreach.1 (hb _ (by simp [hone.lines]))
      · exfalso
        rcases hother with ⟨x, hx, hbx⟩ | ⟨-, x, hx, hbx⟩
        · exact hb x (by simp [hone.lines, hx]) hbx
        · exact hb x (by simp [hone.lines, hx]) hbx
  · -- the server's value has found a place
    rw [if_neg hb, List.append_nil]
    constructor
    · rintro ⟨name, value, hone, hsaid⟩
      obtain ⟨before, l, after, hone, -, hval⟩ := update_isLength.mp hone
      dsimp only at hval
      split at hval
      · next hreach => exact .replaced hone hreach (by rw [← hsaid, hval, hw])
      · next hreach =>
        refine .kept hone ?_ (by rw [← hsaid, hval])
        by_cases hbefore : ∃ x ∈ before, BeginsLength x.1
        · exact .inl hbefore
        · have hname : ¬ BeginsLength l.1 := fun hn =>
            hreach ⟨hn, fun x hx hbx => hbefore ⟨x, hx, hbx⟩⟩
          refine .inr ⟨hname, ?_⟩
          by_contra hafter
          apply hb
          intro x hx hbx
          rw [hone.lines, List.mem_append, List.mem_cons] at hx
          rcases hx with hx | rfl | hx
          · exact hbefore ⟨x, hx, hbx⟩
          · exact hname hbx
          · exact hafter ⟨x, hx, hbx⟩
    · rintro (⟨hnone, -⟩ | @⟨before, l, after, hone, hreach, hlen⟩ |
        @⟨before, l, after, hone, hother, hlen⟩)
      · exact absurd (fun l hl => (hnone l hl).2) hb
      · exact ⟨l.1, w, update_isLength.mpr ⟨before, l, after, hone, rfl, (if_pos hreach).symm⟩,
          hw.trans hlen⟩
      · refine ⟨l.1, l.2, update_isLength.mpr ⟨before, l, after, hone, rfl, (if_neg ?_).symm⟩, hlen⟩
        rintro ⟨hbl, hno⟩
        rcases hother with ⟨x, hx, hbx⟩ | ⟨hname, -⟩
        · exact hno x hx hbx
        · exact hname hbl

/-! ## Framed responses -/

theorem statusLine_bytes {status : Int} {line : List Byte} (h : httpStatusLine status = .ok line) :
    LF ∉ line := by
  have hall : ∀ e ∈ httpStatusInfos, LF ∉ bytes e.2 := by decide
  rw [httpStatusLine_eq, statusLineSearch_eq] at h
  split at h
  · next i hi =>
    obtain ⟨e, he, hline⟩ := Option.map_eq_some_iff.mp h
    cases hline
    exact hall e (List.mem_of_getElem? he)
  all_goals cases h

/-- A head and bytes behind it are framed just if the handler's table leaves it so. -/
theorem framed_iff {r : HttpRequest} {head body : List Byte}
    (hh : connectionResponseHead r = .ok head) :
    Framed r (head ++ body) ↔ FramesBody r body.length := by
  obtain ⟨statusLine, hline, rfl⟩ := responseHead_lines hh
  have htext : firstLineText r statusLine ++
        (responseLines r).flatMap (fun p => headerText p.1 p.2) ++ [CR, LF] ++ body
      = (r.str r.versionStr.data ++ SP :: statusLine) ++ CR :: LF ::
        ((responseLines r).flatMap (fun l => headerText l.1 l.2) ++ CR :: LF :: body) := by
    simp [firstLineText]
  constructor
  · rintro ⟨statusLine', body', name, value, hline', hreads, hone, hsaid⟩
    obtain rfl : statusLine = statusLine' := Except.ok.inj (hline.symm.trans hline')
    have hbody := htext.symm.trans hreads.text
    simp only [List.append_cancel_left_eq, List.cons.injEq, true_and] at hbody
    obtain ⟨hnames, hvalues⟩ := (fieldLines_iff r).mp hreads.lines
    refine ⟨fun hlf => hreads.first (List.mem_append_left _ hlf), hnames, hvalues, ?_⟩
    rw [hbody]
    exact (oneLength_iff r body'.length).mp ⟨name, value, hone, hsaid⟩
  · intro h
    have hfirst : LF ∉ r.str r.versionStr.data ++ SP :: statusLine := by
      rw [List.mem_append, List.mem_cons, not_or, not_or]
      exact ⟨h.version, by decide, statusLine_bytes hline⟩
    obtain ⟨name, value, hone, hsaid⟩ := (oneLength_iff r body.length).mpr h.length
    exact ⟨statusLine, body, name, value, hline,
      ⟨htext, hfirst, (fieldLines_iff r).mpr ⟨h.names, h.values⟩⟩, hone, hsaid⟩

/-- What a response that is sent puts on the connection is framed just if the handler has
    left it so: every entry makes one line, one line says a length, with the server's value
    in place of the first that begins with the name, and the body has that many bytes. -/
theorem connectionSendResponse_framed_iff {r r' : HttpRequest} {io io' : Io} {file : SentFile}
    (h : connectionSendResponse r io file = .ret (true, r', io')) :
    (∃ wire, io'.sent = io.sent ++ wire ∧ Framed r wire) ↔ FramesBody r (bodyLength r file) := by
  obtain ⟨head, body, hhead, hsent, hlen⟩ := connectionSendResponse_sent h
  rw [← hlen, ← framed_iff hhead]
  constructor
  · rintro ⟨wire, hwire, hframed⟩
    obtain rfl := List.append_cancel_left (hsent.symm.trans hwire)
    exact hframed
  · intro hframed
    exact ⟨_, hsent, hframed⟩

/-! ## Files and pages of the server's own -/

/-- A handler that leaves no line about the length leaves only the number of bytes to be
    right. -/
theorem framesBody_iff_of_noLength {r : HttpRequest} {n : Nat}
    (hlines : ∀ l ∈ handlerLines r, IsFieldLine l)
    (hnone : ∀ l ∈ handlerLines r, isLength l.1 = false ∧ ¬ BeginsLength l.1) :
    FramesBody r n ↔ LF ∉ r.str r.versionStr.data ∧ r.bodyOut.contentLen.toNat = n := by
  constructor
  · intro h
    refine ⟨h.version, ?_⟩
    have hno : ∀ {before l after}, ¬ OnlyLength (handlerLines r) before l after := by
      intro before l after hone
      have hl := hnone l (by simp [hone.lines])
      rw [hone.is] at hl
      cases hl.1
    rcases h.length with ⟨-, hlen⟩ | ⟨hone, -, -⟩ | ⟨hone, -, -⟩
    · exact hlen
    · exact absurd hone hno
    · exact absurd hone hno
  · rintro ⟨hversion, hlen⟩
    refine ⟨hversion, fun l hl => (hlines l hl).1, fun before l after hsplit hlf => ?_,
      .added hnone hlen⟩
    exact absurd hlf (hlines l (by simp [hsplit])).2

theorem httpContentType_bytes (h : Heap) (extension : Option (List Byte)) :
    LF ∉ h.str (httpContentType extension).data := by
  have hall : ∀ p ∈ contentTypes, LF ∉ (bytes p.2).takeWhile (· != NUL) := by decide
  have hhtml : LF ∉ (bytes "text/html").takeWhile (· != NUL) := by decide
  unfold httpContentType
  split
  · exact hhtml
  split
  · next hp => exact hall _ (List.mem_of_find?_eq_some hp)
  · exact hhtml

theorem contentType_framesBody_iff {r : HttpRequest} {n : Nat} {extension : Option (List Byte)}
    (htable : r.headersOut.headers = [⟨HTTP_HEADER_CONTENT_TYPE, httpContentType extension⟩]) :
    FramesBody r n ↔ LF ∉ r.str r.versionStr.data ∧ r.bodyOut.contentLen.toNat = n := by
  have hline : handlerLines r = [((bytes "Content-Type").takeWhile (· != NUL),
      r.str (httpContentType extension).data)] := by
    rw [handlerLines, htable]
    rfl
  have hname : (COLON ∉ (bytes "Content-Type").takeWhile (· != NUL) ∧
      LF ∉ (bytes "Content-Type").takeWhile (· != NUL)) ∧
      isLength ((bytes "Content-Type").takeWhile (· != NUL)) = false ∧
      ¬ BeginsLength ((bytes "Content-Type").takeWhile (· != NUL)) := by decide
  apply framesBody_iff_of_noLength
  · rw [hline]
    simpa [IsFieldLine] using ⟨hname.1, httpContentType_bytes r.toHeap extension⟩
  · rw [hline]
    simpa using hname.2

/-- A file that is sent is framed just if `sendfile` transfers `content_len` bytes, and none
    if that is not positive. -/
theorem staticFile_framesBody_iff {root : LocRoot} {fs : FileSystem} {r r' : HttpRequest}
    {calls : List FileCall} {n : Nat} (h : moduleDefaultHandleRequest root fs r = .ok (r', calls))
    (hheaders : r.headersOut.headers = []) (hstatus : r'.status = HTTP_STATUS_OK) :
    FramesBody r' n ↔ LF ∉ r'.str r'.versionStr.data ∧ r'.bodyOut.contentLen.toNat = n := by
  have htable : r'.headersOut.headers = [⟨HTTP_HEADER_CONTENT_TYPE,
      httpContentType (extensionOf (r.str r.url.path.data))⟩] := by
    unfold moduleDefaultHandleRequest at h
    split at h
    · cases h
      cases hstatus
    obtain ⟨path, hpath, h⟩ := Except.bind_eq_ok.mp h
    -- every other end has a status of its own
    split at h
    · cases h
      cases hstatus
    split at h
    · cases h
      cases hstatus
    split at h
    · cases h
      cases hstatus
    cases h
    simp [hheaders, httpHeaderSet]
  exact contentType_framesBody_iff htable

/-! ## Two responses -/

/-- A request whose handler has opened a file of two bytes. -/
def fileRequest : HttpRequest where
  versionStr := .serverString "HTTP/1.1"
  bodyOut := { contentLen := 2, contentFd := 5 }

/-- The descriptor of a client that takes the head in one piece. -/
def headTaken : Io where
  sends := [.sent 81]

/-- What is sent when `sendfile` transfers `n` bytes of the file. -/
def fileSent (n : Nat) : Option (HttpRequest × Io) :=
  match connectionSendResponse fileRequest headTaken ⟨bytes "hi", some n⟩ with
  | .ret (true, r, io) => some (r, io)
  | _ => none

theorem fileSent_spec {n : Nat} {r : HttpRequest} {io : Io} (h : fileSent n = some (r, io)) :
    connectionSendResponse fileRequest headTaken ⟨bytes "hi", some n⟩ = .ret (true, r, io) := by
  unfold fileSent at h
  split at h
  · next heq =>
    cases h
    exact heq
  · cases h

theorem fileRequest_framesBody_iff (n : Nat) : FramesBody fileRequest n ↔ n = 2 := by
  have hlines : ∀ l ∈ handlerLines fileRequest, False := by simp [handlerLines, fileRequest]
  rw [framesBody_iff_of_noLength (fun l hl => (hlines l hl).elim) fun l hl => (hlines l hl).elim]
  constructor
  · exact fun h => h.2.symm
  · exact fun h => ⟨by decide, h.symm⟩

set_option maxRecDepth 4000 in
theorem connectionSendResponse_framed_file : ∃ r io wire,
    connectionSendResponse fileRequest headTaken ⟨bytes "hi", some 2⟩ = .ret (true, r, io) ∧
      io.sent = headTaken.sent ++ wire ∧ Framed fileRequest wire := by
  obtain ⟨⟨r, io⟩, h⟩ : ∃ x, fileSent 2 = some x := Option.isSome_iff_exists.mp (by decide)
  obtain ⟨wire, hwire, hframed⟩ := (connectionSendResponse_framed_iff (fileSent_spec h)).mpr
    ((fileRequest_framesBody_iff _).mpr rfl)
  exact ⟨r, io, wire, fileSent_spec h, hwire, hframed⟩

set_option maxRecDepth 4000 in
/-- `sendfile` transfers one of the two bytes and is not called again. -/
theorem connectionSendResponse_not_framed :
    ¬ ∀ (r r' : HttpRequest) (io io' : Io) (file : SentFile),
      connectionSendResponse r io file = .ret (true, r', io') →
      ∃ wire, io'.sent = io.sent ++ wire ∧ Framed r wire := by
  intro hall
  obtain ⟨⟨r, io⟩, h⟩ : ∃ x, fileSent 1 = some x := Option.isSome_iff_exists.mp (by decide)
  obtain ⟨wire, hwire, hframed⟩ := hall _ _ _ _ _ (fileSent_spec h)
  obtain ⟨head, body, hhead, hsent, hlen⟩ := connectionSendResponse_sent (fileSent_spec h)
  obtain rfl := List.append_cancel_left (hsent.symm.trans hwire)
  have htwo := (fileRequest_framesBody_iff _).mp ((framed_iff hhead).mp hframed)
  rw [hlen] at htwo
  exact absurd htwo (by decide)

end XwpServer
