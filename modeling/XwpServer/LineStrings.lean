/-
  XwpServer.LineStrings

  The strings a line parser records from a line.

  Every string of the request line and of a header line is a piece of its line,
  and the parser has written a terminator behind it (`Str.InLine`).  A URL has up
  to three terminators of its own inside its token.
-/

import XwpServer.ParseLine

namespace XwpServer

open CString Scan

/-! ## Pieces of a line -/

/-- The string `s` is a piece of the line `l`, and zero terminated in `m`, the line as
    the parser has left it in the block `id`. -/
def Str.InLine (id : Nat) (l m : List Byte) (s : Str) : Prop :=
  match s.data with
  | .null => True
  | .lit b => s.len = b.length ∧ NUL ∉ b ∧ b <:+: l
  | .buf i off =>
    i = id ∧ off + s.len < l.length ∧ strAt m off = some ((l.drop off).take s.len)

theorem Str.InLine.frame {id : Nat} {l m : List Byte} {s : Str} (h : s.InLine id l m)
    {pre pre' : List Byte} (hpre : pre'.length = pre.length) (post post' : List Byte) :
    (s.shift pre.length).InLine id (pre ++ l ++ post) (pre' ++ m ++ post') := by
  rcases s with ⟨_ | ⟨i, off⟩ | b, len⟩
  · trivial
  · obtain ⟨rfl, hlt, hstr⟩ := h
    change off + len < l.length at hlt
    refine ⟨rfl, ?_, ?_⟩
    · change pre.length + off + len < (pre ++ l ++ post).length
      simp only [List.length_append]
      omega
    · change strAt _ (pre.length + off) = some (((pre ++ l ++ post).drop (pre.length + off)).take len)
      rw [take_drop_frame pre l post (by omega), ← hpre]
      exact strAt_frame hstr pre' post'
  · obtain ⟨hlen, hz, hin⟩ := h
    exact ⟨hlen, hz, hin.trans ⟨pre, post, rfl⟩⟩

/-- A terminator at `e` ends the string that starts at `a`. -/
theorem strAt_set_slice {m : List Byte} {a e : Nat} (hae : a ≤ e) (he : e < m.length)
    (hz : NUL ∉ (m.drop a).take (e - a)) :
    strAt (m.set e NUL) a = some ((m.drop a).take (e - a)) := by
  have hlen : ((m.drop a).take (e - a)).length = e - a := by
    simp only [List.length_take, List.length_drop]
    omega
  have hsplit : m.drop a = (m.drop a).take (e - a) ++ m[e] :: m.drop (e + 1) := by
    have htail : (m.drop a).drop (e - a) = m[e] :: m.drop (e + 1) := by
      rw [List.drop_drop, show a + (e - a) = e by omega, List.drop_eq_getElem_cons he]
    rw [← htail, List.take_append_drop]
  have hset := strAt_set_end hsplit hz
  rwa [hlen, show a + (e - a) = e by omega] at hset

theorem notMem_slice {w : List Byte} (hw : NUL ∉ w) {c : Byte} {a e : Nat} (he : e ≤ w.length) :
    NUL ∉ ((w ++ [c]).drop a).take (e - a) := by
  intro hmem
  rcases Nat.lt_or_ge e a with h | h
  · simp [show e - a = 0 by omega] at hmem
  · rw [List.drop_append_of_le_length (by omega),
      List.take_append_of_le_length (by simp only [List.length_drop]; omega)] at hmem
    exact hw (List.mem_of_mem_drop (List.mem_of_mem_take hmem))

/-! ## The order of the marks in a URL -/

/-- The schema, if it has been marked, ends before `p` and before the host. -/
structure UrlMarks.SchemaBefore (k : UrlMarks) (p : Nat) : Prop where
  ends : ∀ e ∈ k.schemaEnd, e < p
  starts : ∀ a ∈ k.schemaStart, ∀ e ∈ k.schemaEnd, a ≤ e
  host : ∀ a ∈ k.hostStart, ∀ e ∈ k.schemaEnd, e < a

theorem UrlMarks.SchemaBefore.mono {k : UrlMarks} {p p' : Nat} (h : k.SchemaBefore p)
    (hp : p ≤ p') : k.SchemaBefore p' :=
  ⟨fun e he => Nat.lt_of_lt_of_le (h.ends e he) hp, h.starts, h.host⟩

/-- How far the path and the query string have been marked at position `p`: not at
    all, the start of the path, the path, or a part of the query string as well. -/
inductive UrlMarks.PathUpTo (k : UrlMarks) (p : Nat) : Prop where
  | none (ps : k.pathStart = none) (qs : k.queryStart = none)
  | path (a : Nat) (ps : k.pathStart = some a) (pe : k.pathEnd = none)
      (qs : k.queryStart = none) (hp : a ≤ p)
  | pathEnd (a e : Nat) (ps : k.pathStart = some a) (pe : k.pathEnd = some e)
      (qs : k.queryStart = none) (hp : a ≤ e ∧ e < p)
  | query (a e q : Nat) (ps : k.pathStart = some a) (pe : k.pathEnd = some e)
      (qs : k.queryStart = some q) (hp : a ≤ e ∧ e < q ∧ q ≤ p)
      (qe : ∀ x ∈ k.queryEnd, q ≤ x ∧ x < p)

/-- The marks at position `p` of the token, in state `s`. -/
def UrlMarks.Ordered (s : UrlState) (k : UrlMarks) (p : Nat) : Prop :=
  match s with
  | .start | .schema =>
    k.pathStart = none ∧ k.pathEnd = none ∧ k.queryStart = none ∧ k.queryEnd = none ∧
      k.schemaEnd = none ∧ k.hostStart = none ∧ ∀ a ∈ k.schemaStart, a < p
  | .schemaSlash | .host | .port =>
    k.pathStart = none ∧ k.pathEnd = none ∧ k.queryStart = none ∧ k.queryEnd = none ∧
      k.SchemaBefore p
  | .path =>
    ∃ a, k.pathStart = some a ∧ k.pathEnd = none ∧ k.queryStart = none ∧ k.queryEnd = none ∧
      a ≤ p ∧ k.SchemaBefore a
  | .queryString =>
    ∃ a e q, k.pathStart = some a ∧ k.pathEnd = some e ∧ k.queryStart = some q ∧
      k.queryEnd = none ∧ a ≤ e ∧ e < q ∧ q ≤ p ∧ k.SchemaBefore a
  | .done => k.PathUpTo p ∧ k.SchemaBefore (k.pathStart.getD p)

/-- What the recorder relies on. -/
structure UrlMarks.Recordable (k : UrlMarks) (n : Nat) : Prop where
  path : k.PathUpTo n
  schema : k.SchemaBefore (k.pathStart.getD n)

theorem UrlMarks.Ordered.recordable {s : UrlState} {k : UrlMarks} {p : Nat}
    (h : k.Ordered s p) : k.Recordable p := by
  cases s with
  | start | schema =>
      obtain ⟨hps, hpe, hqs, hqe, hse, hhs, hss⟩ := h
      exact ⟨.none hps hqs, ⟨by simp [hse], by simp [hse], by simp [hse]⟩⟩
  | schemaSlash | host | port =>
      obtain ⟨hps, hpe, hqs, hqe, hs⟩ := h
      exact ⟨.none hps hqs, by simpa [hps] using hs⟩
  | path =>
      obtain ⟨a, hps, hpe, hqs, hqe, hap, hs⟩ := h
      exact ⟨.path a hps hpe hqs hap, by simpa [hps] using hs⟩
  | queryString =>
      obtain ⟨a, e, q, hps, hpe, hqs, hqe, hae, heq, hqp, hs⟩ := h
      exact ⟨.query a e q hps hpe hqs ⟨hae, heq, hqp⟩ (by simp [hqe]), by simpa [hps] using hs⟩
  | done => exact ⟨h.1, h.2⟩

theorem urlStep_ordered {s s' : UrlState} {k k' : UrlMarks} {p : Nat} {c : Byte}
    (h : urlStep s k p c = some (s', k')) (hk : k.Ordered s p) : k'.Ordered s' (p + 1) := by
  -- one case a state; in each the bytes that move on and those that stay
  unfold urlStep at h
  cases s with
  | start =>
      obtain ⟨hps, hpe, hqs, hqe, hse, hhs, hss⟩ := hk
      dsimp only at h
      split_ifs at h <;> simp only [Option.some.injEq, Prod.mk.injEq] at h <;>
        obtain ⟨rfl, rfl⟩ := h
      · exact ⟨hps, hpe, hqs, hqe, hse, hhs, fun a ha => Nat.lt_succ_of_lt (hss a ha)⟩
      · exact ⟨hps, hpe, hqs, hqe, hse, hhs, by simp⟩
      -- a path without a schema starts here
      · exact ⟨p, rfl, hpe, hqs, hqe, by omega, ⟨by simp [hse], by simp [hse], by simp [hse]⟩⟩
  | schema =>
      obtain ⟨hps, hpe, hqs, hqe, hse, hhs, hss⟩ := hk
      dsimp only at h
      split_ifs at h <;> simp only [Option.some.injEq, Prod.mk.injEq] at h <;>
        obtain ⟨rfl, rfl⟩ := h
      · exact ⟨hps, hpe, hqs, hqe, hse, hhs, fun a ha => Nat.lt_succ_of_lt (hss a ha)⟩
      · exact ⟨hps, hpe, hqs, hqe, ⟨by simp, fun a ha e he => by
          have := hss a ha
          simp only [Option.mem_some_iff] at he
          omega, by simp [hhs]⟩⟩
  | schemaSlash =>
      obtain ⟨hps, hpe, hqs, hqe, hs⟩ := hk
      dsimp only at h
      split_ifs at h <;> simp only [Option.some.injEq, Prod.mk.injEq] at h <;>
        obtain ⟨rfl, rfl⟩ := h
      · exact ⟨hps, hpe, hqs, hqe, hs.mono (by omega)⟩
      · refine ⟨hps, hpe, hqs, hqe, ⟨(hs.mono (by omega)).ends, hs.starts, fun a ha e he => ?_⟩⟩
        simp only [Option.mem_some_iff] at ha
        exact ha ▸ hs.ends e he
  | host =>
      obtain ⟨hps, hpe, hqs, hqe, hs⟩ := hk
      dsimp only at h
      split_ifs at h <;> simp only [Option.some.injEq, Prod.mk.injEq] at h <;>
        obtain ⟨rfl, rfl⟩ := h
      · exact ⟨hps, hpe, hqs, hqe, hs.mono (by omega)⟩
      · exact ⟨hps, hpe, hqs, hqe, hs.mono (by omega)⟩
      · exact ⟨hps, hpe, hqs, hqe, ⟨(hs.mono (by omega)).ends, hs.starts, hs.host⟩⟩
      · exact ⟨p, rfl, hpe, hqs, hqe, by omega, ⟨hs.ends, hs.starts, hs.host⟩⟩
  | port =>
      obtain ⟨hps, hpe, hqs, hqe, hs⟩ := hk
      dsimp only at h
      split_ifs at h <;> simp only [Option.some.injEq, Prod.mk.injEq] at h <;>
        obtain ⟨rfl, rfl⟩ := h
      · exact ⟨hps, hpe, hqs, hqe, hs.mono (by omega)⟩
      · exact ⟨p, rfl, hpe, hqs, hqe, by omega, ⟨hs.ends, hs.starts, hs.host⟩⟩
      -- a port with no path behind it ends the scan
      · refine ⟨.none hps hqs, ?_⟩
        rw [show Option.getD _ _ = p + 1 by simp [hps]]
        exact ⟨(hs.mono (by omega)).ends, hs.starts, hs.host⟩
  | path =>
      obtain ⟨a, hps, hpe, hqs, hqe, hap, hs⟩ := hk
      dsimp only at h
      split_ifs at h <;> simp only [Option.some.injEq, Prod.mk.injEq] at h <;>
        obtain ⟨rfl, rfl⟩ := h
      · exact ⟨a, p, p + 1, hps, rfl, rfl, hqe, hap, by omega, by omega, ⟨hs.ends, hs.starts, hs.host⟩⟩
      · refine ⟨.pathEnd a p hps rfl hqs ⟨hap, by omega⟩, ?_⟩
        rw [show Option.getD _ _ = a by simp [hps]]
        exact ⟨hs.ends, hs.starts, hs.host⟩
      · refine ⟨.pathEnd a p hps rfl hqs ⟨hap, by omega⟩, ?_⟩
        rw [show Option.getD _ _ = a by simp [hps]]
        exact ⟨hs.ends, hs.starts, hs.host⟩
      · exact ⟨a, hps, hpe, hqs, hqe, by omega, hs⟩
  | queryString =>
      obtain ⟨a, e, q, hps, hpe, hqs, hqe, hae, heq, hqp, hs⟩ := hk
      dsimp only at h
      split_ifs at h <;> simp only [Option.some.injEq, Prod.mk.injEq] at h <;>
        obtain ⟨rfl, rfl⟩ := h
      -- the query string ends in front of a fragment
      · refine ⟨.query a e q hps hpe hqs ⟨hae, heq, by omega⟩ ?_, ?_⟩
        · simpa using hqp
        · rw [show Option.getD _ _ = a by simp [hps]]
          exact ⟨hs.ends, hs.starts, hs.host⟩
      · exact ⟨a, e, q, hps, hpe, hqs, hqe, hae, heq, by omega, hs⟩
  | done => simp at h

theorem UrlMarks.Recordable.mono {k : UrlMarks} {n n' : Nat} (h : k.Recordable n)
    (hn : n ≤ n') : k.Recordable n' := by
  have hschema : k.SchemaBefore (k.pathStart.getD n') := by
    refine h.schema.mono ?_
    rcases k.pathStart with _ | a
    · exact hn
    · exact Nat.le_refl a
  refine ⟨?_, hschema⟩
  rcases h.path with ⟨ps, qs⟩ | ⟨a, ps, pe, qs, hp⟩ | ⟨a, e, ps, pe, qs, hp⟩ |
    ⟨a, e, q, ps, pe, qs, hp, qe⟩
  · exact .none ps qs
  · exact .path a ps pe qs (by omega)
  · exact .pathEnd a e ps pe qs ⟨hp.1, by omega⟩
  · exact .query a e q ps pe qs ⟨hp.1, hp.2.1, by omega⟩ fun x hx => by
      have := qe x hx
      omega

/-- The marks of a whole token. -/
theorem urlScan_recordable {u : List Byte} {p : Nat} {s : UrlState} {k k' : UrlMarks}
    (h : urlScan u p s k = some k') (hk : k.Ordered s p) : k'.Recordable (p + u.length) := by
  induction u generalizing p s k with
  | nil =>
      simp only [urlScan, Option.some.injEq] at h
      subst h
      exact hk.recordable
  | cons c cs ih =>
      simp only [urlScan] at h
      have hlen : p + (c :: cs).length = p + 1 + cs.length := by simp; omega
      split_ifs at h with hc
      · simp only [Option.some.injEq] at h
        subst h
        exact hk.recordable.mono (Nat.le_add_right ..)
      · rw [hlen]
        split at h
        · simp at h
        · next k₁ hstep =>
          simp only [Option.some.injEq] at h
          subst h
          exact (urlStep_ordered hstep hk).recordable.mono (Nat.le_add_right ..)
        · next s₁ k₁ _ hstep => exact ih h (urlStep_ordered hstep hk)

/-! ## The strings of a URL -/

/-- All strings of a URL are pieces of the line. -/
structure Url.InLine (id : Nat) (l m : List Byte) (u : Url) : Prop where
  unparsedUrl : u.unparsedUrl.InLine id l m
  schema : u.schema.InLine id l m
  host : u.host.InLine id l m
  path : u.path.InLine id l m
  queryString : u.queryString.InLine id l m

theorem Url.InLine.frame {id : Nat} {l m : List Byte} {u : Url} (h : u.InLine id l m)
    {pre pre' : List Byte} (hpre : pre'.length = pre.length) (post post' : List Byte) :
    (u.shift pre.length).InLine id (pre ++ l ++ post) (pre' ++ m ++ post') where
  unparsedUrl := h.unparsedUrl.frame hpre post post'
  schema := h.schema.frame hpre post post'
  host := h.host.frame hpre post post'
  path := h.path.frame hpre post post'
  queryString := h.queryString.frame hpre post post'

theorem poolStrndup_inLine {id : Nat} {l m s : List Byte} (hz : NUL ∉ s) (hs : s <:+: l) :
    (poolStrndup s).InLine id l m := by
  unfold poolStrndup
  split
  · trivial
  · exact ⟨rfl, hz, hs⟩

section UrlStrings

variable {id : Nat} {w : List Byte} {k : UrlMarks} {m m₁ m' : List Byte}
  {out out₁ out' : Url}

/-- A part of the token `w` with a terminator behind it. -/
theorem urlPart_inLine {a e : Nat} (hae : a ≤ e) (he : e ≤ w.length) (c : Byte)
    (h : strAt m a = some (((w ++ [NUL]).drop a).take (e - a))) :
    (urlPart id ⟨0, w.length⟩ a e).InLine id (w ++ [c]) m := by
  have hslice : ∀ d : Byte, ((w ++ [d]).drop a).take (e - a) = (w.drop a).take (e - a) := by
    intro d
    rw [List.drop_append_of_le_length (by omega), List.take_append_of_le_length]
    simp only [List.length_drop]
    omega
  refine ⟨rfl, ?_, ?_⟩
  · change 0 + a + (e - a) < (w ++ [c]).length
    simp only [List.length_append, List.length_singleton]
    omega
  · change strAt m (0 + a) = some (((w ++ [c]).drop (0 + a)).take (e - a))
    rw [Nat.zero_add, hslice, h, hslice]

theorem urlSchema_strings (hw : NUL ∉ w)
    (hk : k.SchemaBefore (w.length + 1)) (hout : out.schema = .null)
    (h : urlSchema id ⟨0, w.length⟩ k (w ++ [NUL]) out = some (m', out')) :
    out' = { out with schema := out'.schema } ∧
      (∀ a, (∀ e ∈ k.schemaEnd, e < a) → m'.drop a = (w ++ [NUL]).drop a) ∧
      (out'.schema = .null ∨ ∃ a e, k.schemaEnd = some e ∧ a ≤ e ∧ e ≤ w.length ∧
        out'.schema = urlPart id ⟨0, w.length⟩ a e ∧
        strAt m' a = some (((w ++ [NUL]).drop a).take (e - a))) := by
  unfold urlSchema at h
  split at h
  · next a e ha he =>
    have hae := hk.starts a ha e he
    have hle : e ≤ w.length := Nat.lt_succ_iff.mp (hk.ends e he)
    simp only [Option.some.injEq, Prod.mk.injEq, Nat.zero_add] at h
    obtain ⟨rfl, rfl⟩ := h
    refine ⟨rfl, fun x hx => List.drop_set_of_lt (hx e he), Or.inr ⟨a, e, he, hae, hle, rfl, ?_⟩⟩
    exact strAt_set_slice hae (by simp; omega) (notMem_slice hw hle)
  · simp at h
  · simp only [Option.some.injEq, Prod.mk.injEq] at h
    obtain ⟨rfl, rfl⟩ := h
    exact ⟨rfl, fun _ _ => rfl, Or.inl hout⟩

theorem urlHost_strings (hw : NUL ∉ w) (hk : k.SchemaBefore (w.length + 1))
    (hle : k.Le w.length) (c : Byte) (hout : out.host = .null)
    (hm : ∀ a, (∀ e ∈ k.schemaEnd, e < a) → m.drop a = (w ++ [NUL]).drop a)
    (h : urlHost ⟨0, w.length⟩ k m out = some out') :
    out' = { out with host := out'.host } ∧ out'.host.InLine id (w ++ [c]) m' := by
  unfold urlHost at h
  split at h <;> simp only [Option.some.injEq, reduceCtorEq] at h
  · next a e ha he =>
    subst h
    refine ⟨rfl, ?_⟩
    have hslice : (m.drop (0 + a)).take (e - a) = (w.drop a).take (e - a) := by
      have hea := hle.hostEnd e he
      have hsa := hle.hostStart a ha
      rw [Nat.zero_add, hm a (hk.host a ha), List.drop_append_of_le_length hsa,
        List.take_append_of_le_length]
      simp only [List.length_drop]
      omega
    simp only [hslice]
    refine poolStrndup_inLine ?_ ?_
    · exact fun hmem => hw (List.mem_of_mem_drop (List.mem_of_mem_take hmem))
    · exact ((List.take_prefix _ _).isInfix.trans (List.drop_suffix _ _).isInfix).trans
        (List.prefix_append _ _).isInfix
  · subst h
    refine ⟨rfl, ?_⟩
    rw [hout]
    trivial

/-- A part of the token behind the schema, after its terminator has been written. -/
theorem urlPart_set_inLine (hw : NUL ∉ w) (c : Byte) {a e : Nat} (hae : a ≤ e)
    (he : e ≤ w.length) (hmlen : m.length = w.length + 1)
    (hm : m.drop a = (w ++ [NUL]).drop a) :
    (urlPart id ⟨0, w.length⟩ a e).InLine id (w ++ [c]) (m.set e NUL) := by
  refine urlPart_inLine hae he c ?_
  rw [← hm]
  refine strAt_set_slice hae (by omega) ?_
  rw [hm]
  exact notMem_slice hw he

/-- A terminator written behind the end of a piece. -/
theorem urlPart_inLine_set (c : Byte) {a e i : Nat} (hi : e < i) (hae : a ≤ e)
    (h : (urlPart id ⟨0, w.length⟩ a e).InLine id (w ++ [c]) m) :
    (urlPart id ⟨0, w.length⟩ a e).InLine id (w ++ [c]) (m.set i NUL) := by
  obtain ⟨hid, hlt, hstr⟩ := h
  refine ⟨hid, hlt, strAt_set_after hstr ?_ NUL⟩
  change 0 + a + (((w ++ [c]).drop (0 + a)).take (e - a)).length < i
  simp only [List.length_take, List.length_drop]
  omega

/-- The path and the query string: their terminators come after the schema's, and the
    query string's after the path's. -/
theorem urlPathQuery_strings (hw : NUL ∉ w) (c : Byte) (hk : k.Recordable w.length)
    (hle : k.Le w.length) (hout : out.path = .null ∧ out.queryString = .null)
    (hmlen : m.length = w.length + 1)
    (hm : ∀ a, (∀ e ∈ k.schemaEnd, e < a) → m.drop a = (w ++ [NUL]).drop a)
    (hp : urlPath id ⟨0, w.length⟩ k m out = (m₁, out₁))
    (hq : urlQuery id ⟨0, w.length⟩ k m₁ out₁ = (m', out')) :
    out' = { out with path := out'.path, queryString := out'.queryString } ∧
      out'.path.InLine id (w ++ [c]) m' ∧ out'.queryString.InLine id (w ++ [c]) m' ∧
      ∀ {a e : Nat}, k.schemaEnd = some e → a ≤ e →
        (urlPart id ⟨0, w.length⟩ a e).InLine id (w ++ [c]) m →
        (urlPart id ⟨0, w.length⟩ a e).InLine id (w ++ [c]) m' := by
  have hafter : ∀ {ps : Nat}, k.pathStart = some ps → ∀ e ∈ k.schemaEnd, e < ps := by
    intro ps hps e he
    have := hk.schema.ends e he
    simpa [hps] using this
  -- no path; a path to the end of the token; one that ends before; one with a query string
  rcases hk.path with ⟨ps, qs⟩ | ⟨a, ps, pe, qs, hp'⟩ | ⟨a, e, ps, pe, qs, hp'⟩ |
    ⟨a, e, q, ps, pe, qs, hp', qe⟩
  · simp only [urlPath, ps, Prod.mk.injEq] at hp
    obtain ⟨rfl, rfl⟩ := hp
    simp only [urlQuery, qs, Prod.mk.injEq] at hq
    obtain ⟨rfl, rfl⟩ := hq
    exact ⟨rfl, hout.1 ▸ trivial, hout.2 ▸ trivial, fun _ _ h => h⟩
  · simp only [urlPath, ps, pe, Option.getD_none, Nat.zero_add, Prod.mk.injEq] at hp
    obtain ⟨rfl, rfl⟩ := hp
    simp only [urlQuery, qs, Prod.mk.injEq] at hq
    obtain ⟨rfl, rfl⟩ := hq
    refine ⟨rfl, urlPart_set_inLine hw c hp' (Nat.le_refl _) hmlen (hm a (hafter ps)),
      hout.2 ▸ trivial, fun {b e'} he' hbe h => ?_⟩
    have := hafter ps e' he'
    exact urlPart_inLine_set c (by omega) hbe h
  · simp only [urlPath, ps, pe, Option.getD_some, Nat.zero_add, Prod.mk.injEq] at hp
    obtain ⟨rfl, rfl⟩ := hp
    simp only [urlQuery, qs, Prod.mk.injEq] at hq
    obtain ⟨rfl, rfl⟩ := hq
    refine ⟨rfl, urlPart_set_inLine hw c hp'.1 (by omega) hmlen (hm a (hafter ps)),
      hout.2 ▸ trivial, fun {b e'} he' hbe h => ?_⟩
    have := hafter ps e' he'
    exact urlPart_inLine_set c (by omega) hbe h
  · simp only [urlPath, ps, pe, Option.getD_some, Nat.zero_add, Prod.mk.injEq] at hp
    obtain ⟨rfl, rfl⟩ := hp
    have hx : q ≤ k.queryEnd.getD w.length ∧ k.queryEnd.getD w.length ≤ w.length := by
      rcases hqe : k.queryEnd with _ | x
      · simp only [Option.getD_none, Nat.le_refl, and_true]
        omega
      · exact ⟨(qe x hqe).1, hle.queryEnd x hqe⟩
    simp only [urlQuery, qs, Nat.zero_add, Prod.mk.injEq] at hq
    obtain ⟨rfl, rfl⟩ := hq
    -- the path's terminator is in front of the query string
    have hdrop : (m.set e NUL).drop q = (w ++ [NUL]).drop q := by
      rw [List.drop_set_of_lt hp'.2.1]
      refine hm q fun x hx => ?_
      have := hafter ps x hx
      omega
    refine ⟨rfl, ?_, ?_, fun {b e'} he' hbe h => ?_⟩
    · exact urlPart_inLine_set c (by omega) hp'.1
        (urlPart_set_inLine hw c hp'.1 (by omega) hmlen (hm a (hafter ps)))
    · exact urlPart_set_inLine hw c hx.1 hx.2 (by simpa using hmlen) hdrop
    · have := hafter ps e' he'
      exact urlPart_inLine_set c (by omega) hbe (urlPart_inLine_set c (by omega) hbe h)

/-- Whatever `http_parse_url` records from a token of the line is a piece of it. -/
theorem httpParseUrl_inLine (id : Nat) (hw : NUL ∉ w) (c : Byte) :
    (httpParseUrl id (w ++ [NUL]) {} ⟨0, w.length⟩).2.2.InLine id (w ++ [c])
      (httpParseUrl id (w ++ [NUL]) {} ⟨0, w.length⟩).2.1 := by
  have hu : ((w ++ [NUL]).drop 0).take w.length = w := by simp
  have hunparsed : ∀ m : List Byte, (poolStrndup w).InLine id (w ++ [c]) m := fun m =>
    poolStrndup_inLine hw (List.prefix_append w [c]).isInfix
  simp only [httpParseUrl, hu]
  -- only `unparsed_url` is set where the scan fails
  rcases hscan : urlScan w 0 .start {} with _ | k
  · exact ⟨hunparsed _, trivial, trivial, trivial, trivial⟩
  · have hk : k.Recordable w.length := by
      have hstart : ({} : UrlMarks).Ordered .start 0 := by simp [UrlMarks.Ordered]
      simpa using urlScan_recordable hscan hstart
    have hle : k.Le w.length := by
      have h0 : ({} : UrlMarks).Le 0 := by constructor <;> simp
      simpa using urlScan_le hscan h0
    have hschema : k.SchemaBefore (w.length + 1) := by
      refine ⟨fun e he => Nat.lt_succ_of_le (hle.schemaEnd e he), hk.schema.starts,
        hk.schema.host⟩
    simp only
    generalize hout : ({ unparsedUrl := poolStrndup w } : Url) = out
    have hnull : out.unparsedUrl = poolStrndup w ∧ out.schema = .null ∧ out.host = .null ∧
        out.path = .null ∧ out.queryString = .null := by
      subst hout
      exact ⟨rfl, rfl, rfl, rfl, rfl⟩
    obtain ⟨hn₁, hn₂, hn₃, hn₄, hn₅⟩ := hnull
    unfold urlRecord
    rcases hs : urlSchema id ⟨0, w.length⟩ k (w ++ [NUL]) out with _ | ⟨m₁, out₁⟩
    · exact ⟨hn₁ ▸ hunparsed _, hn₂ ▸ trivial, hn₃ ▸ trivial, hn₄ ▸ trivial, hn₅ ▸ trivial⟩
    -- each part is recorded after the one before it, whose terminator it leaves alone
    · obtain ⟨hout₁, hdrop, hsch⟩ := urlSchema_strings hw hschema hn₂ hs
      have hlen₁ : m₁.length = w.length + 1 := by
        simpa using urlSchema_length id ⟨0, w.length⟩ k out hs
      have hschemaIn : out₁.schema.InLine id (w ++ [c]) m₁ := by
        rcases hsch with h | ⟨a, e, -, hae, hen, h, hstr⟩
        · exact h ▸ trivial
        · exact h ▸ urlPart_inLine hae hen c hstr
      rw [hout₁]
      rcases hh : urlHost ⟨0, w.length⟩ k m₁ out₁ with _ | out₂
      · rw [hout₁] at hh
        simp only [hh]
        exact ⟨hn₁ ▸ hunparsed _, hschemaIn, hn₃ ▸ trivial, hn₄ ▸ trivial, hn₅ ▸ trivial⟩
      · have hnull₁ : out₁.host = .null := by rw [hout₁]; exact hn₃
        have hout₂ := fun mm => @urlHost_strings id _ _ _ mm _ _ hw hschema hle c hnull₁ hdrop hh
        rw [hout₁] at hh
        simp only [hh]
        split
        · rw [(hout₂ m₁).1, hout₁]
          exact ⟨hn₁ ▸ hunparsed _, hschemaIn, (hout₂ m₁).2, hn₄ ▸ trivial, hn₅ ▸ trivial⟩
        -- path and query string: the stores behind them keep the schema a string of the line
        · generalize hout₃ : ({ out₂ with
            port := urlPort ((m₁.drop 0).take w.length) k } : Url) = out₃
          rcases hp : urlPath id ⟨0, w.length⟩ k m₁ out₃ with ⟨m₂, out₄⟩
          rcases hq : urlQuery id ⟨0, w.length⟩ k m₂ out₄ with ⟨m₃, out₅⟩
          have h₃ : out₃.unparsedUrl = poolStrndup w ∧ out₃.schema = out₁.schema ∧
              out₃.host = out₂.host ∧ out₃.path = .null ∧ out₃.queryString = .null := by
            subst hout₃
            rw [(hout₂ m₁).1, hout₁]
            exact ⟨hn₁, rfl, rfl, hn₄, hn₅⟩
          obtain ⟨hout₅, hpath, hquery, hkeep⟩ := urlPathQuery_strings hw c hk hle
            ⟨h₃.2.2.2.1, h₃.2.2.2.2⟩ hlen₁ hdrop hp hq
          rw [hout₅]
          refine ⟨?_, ?_, ?_, hpath, hquery⟩
          · exact h₃.1 ▸ hunparsed _
          · change out₃.schema.InLine id _ _
            rw [h₃.2.1]
            rcases hsch with h | ⟨a, e, hse, hae, hen, h, hstr⟩
            · exact h ▸ trivial
            · rw [h]
              exact hkeep hse hae (urlPart_inLine hae hen c hstr)
          · change out₃.host.InLine id _ _
            rw [h₃.2.2.1]
            exact (hout₂ _).2

end UrlStrings

end XwpServer
